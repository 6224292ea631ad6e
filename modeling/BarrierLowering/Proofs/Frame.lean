import BarrierLowering.Proofs.Regions
import BarrierLowering.TurnLoop

/-!
# The frame of a loop

A framed region has a header in front of its start and a tail in front of its barrier, and all
that led there leads to them. The code of the loop is emitted into these two blocks and into the
block in front of the region.

## Main definitions

* `Region.frame` — what stands for a block when a region is framed.
* `Framable` — a region, and two new block identifiers for its frame.
* `Func.widen` — append instructions to one block.

## Main results

* `Framable.cut_cut` — two splits frame a region.
* `Framable.apply_value_header`, `Framable.apply_value_tail` — what is emitted into the frame.
* `Framable.apply_closePhi` — the phi node of the header gets its second value.
-/

namespace BarrierLowering

/-! ### Emitting an instruction -/

/-- The next instruction with a result. -/
def Counters.emit (c : Counters) (op : Op) (ty : Ty) : Instr := ⟨⟨c.instr⟩, some ⟨c.value⟩, op, ty⟩

/-- The counters after an instruction with a result. -/
def Counters.step (c : Counters) : Counters := { c with value := c.value + 1, instr := c.instr + 1 }

namespace Func

variable {f : Func} {b : BlockId}

/-- Append an instruction to a block, and set the counters. -/
def push (f : Func) (b : BlockId) (i : Instr) (next : Counters) : Func :=
  { f.mapBlock b (fun blk => { blk with instrs := blk.instrs ++ [i] }) with next }

/-- Close a block. -/
def close (f : Func) (b : BlockId) (t : Terminator) : Func :=
  f.mapBlock b fun blk => { blk with term := t }

end Func

namespace Emit

variable {f : Func} {b : BlockId} {op : Op} {ty : Ty}

theorem apply_checkBlock (hb : b ∈ f.blockIds) : (checkBlock b).apply f = (.ok (), f) := by
  obtain ⟨blk, hblk⟩ := Func.mem_blockIds_iff.1 hb
  unfold checkBlock
  rw [Edit.apply_bind, Edit.apply_require, hblk]
  rfl

/-- What begins with a check of a missing block fails and changes nothing. -/
theorem apply_checkBlock_bind {α : Type} {k : Unit → Edit EditError α} (hb : b ∉ f.blockIds) :
    (checkBlock b >>= k).apply f = (.error (.unknownBlock b), f) := by
  rw [Edit.apply_bind, checkBlock, Edit.apply_bind, Edit.apply_require,
    Func.block?_eq_none_iff.2 hb]

/-- What begins with a check of a block succeeds only if the block exists. -/
theorem mem_of_checkBlock {α : Type} {k : Unit → Edit EditError α} {r : α} {g : Func}
    (h : (checkBlock b >>= k).apply f = (.ok r, g)) : b ∈ f.blockIds := by
  by_contra hb
  rw [apply_checkBlock_bind hb] at h
  cases h

theorem apply_push (hb : b ∈ f.blockIds) (result : Option ValueId) : (push b result op ty).apply f =
    (.ok ⟨f.next.instr⟩, f.push b ⟨⟨f.next.instr⟩, result, op, ty⟩
      { f.next with instr := f.next.instr + 1 }) := by
  unfold push
  rw [Edit.apply_bind, apply_checkBlock hb]
  rfl

/-- An operation with a result. -/
theorem apply_value (hb : b ∈ f.blockIds) : (value b op ty).apply f =
    (.ok ⟨f.next.value⟩, f.push b (f.next.emit op ty) f.next.step) := by
  unfold value
  rw [Edit.apply_bind, apply_checkBlock hb]
  dsimp only
  rw [Edit.apply_bind, Edit.freshValue, Edit.apply_modifyGet]
  dsimp only
  let f' : Func := { f with next := { f.next with value := f.next.value + 1 } }
  have hpush : (push b (some ⟨f.next.value⟩) op ty).apply f' = _ := apply_push (f := f') hb _
  rw [Edit.apply_bind, hpush]
  rfl

theorem and_eq (b : BlockId) (left right : ValueId) (ty : Ty) :
    and b left right ty = value b (.binary .and left right) ty := rfl

theorem eq_eq (b : BlockId) (left right : ValueId) :
    eq b left right = value b (.binary .eq left right) .bool := rfl

theorem apply_terminator (hb : b ∈ f.blockIds) (t : Terminator) :
    (terminator b t).apply f = (.ok (), f.close b t) := by
  unfold terminator
  rw [Edit.apply_bind, apply_checkBlock hb]
  rfl

end Emit

/-! ### The frame of a loop -/

/-- The block that stands in front of a region, where edges to its start lead instead, and the
same for its barrier. -/
def Region.detour (r : Region) (header tail target : BlockId) : BlockId :=
  if target = r.start then header else if target = r.succ then tail else target

/-- The blocks that stand for a block when a loop is built around a region. -/
def Region.frame (r : Region) (opening : List Instr) (header tail blk : Block) : List Block :=
  (if blk.id = r.start then [header] else []) ++ (if blk.id = r.succ then [tail] else []) ++
    [{ blk with
      instrs := blk.instrs ++ if blk.id = r.pred then opening else []
      term := blk.term.mapTargets (r.detour header.id tail.id) }]

theorem Region.detour_of_ne {r : Region} {header tail x : BlockId} (hs : x ≠ r.start)
    (ht : x ≠ r.succ) : r.detour header tail x = x := by
  rw [detour, if_neg hs, if_neg ht]

/-- A block that has nothing to do with a region stands for itself. -/
theorem Region.frame_eq_self {r : Region} {opening : List Instr} {header tail blk : Block}
    (hs : blk.id ≠ r.start) (ht : blk.id ≠ r.succ) (hp : blk.id ≠ r.pred)
    (hterm : blk.term.mapTargets (r.detour header.id tail.id) = blk.term) :
    r.frame opening header tail blk = [blk] := by
  rw [frame, if_neg hs, if_neg ht, if_neg hp, hterm, List.nil_append, List.nil_append,
    List.append_nil]

/-- A region in a function, and two block identifiers that the function does not use. -/
structure Framable (f : Func) (r : Region) (header tail : BlockId) : Prop where
  nodup : f.blockIds.Nodup
  pred_mem : r.pred ∈ f.blockIds
  start_mem : r.start ∈ f.blockIds
  succ_mem : r.succ ∈ f.blockIds
  start_ne_succ : r.start ≠ r.succ
  header_new : header ∉ f.blockIds
  tail_new : tail ∉ f.blockIds
  ne : header ≠ tail

namespace Framable

variable {f : Func} {r : Region} {opening : List Instr} {h t x : BlockId} {header tail blk : Block}
  {next : Counters}

/-- The blocks of a framed function: two new ones, and those from before. -/
theorem blockIds_perm (hf : Framable f r header.id tail.id) :
    (f.expand (r.frame opening header tail) next).blockIds.Perm
      (header.id :: tail.id :: f.blockIds) := by
  have hids : (f.expand (r.frame opening header tail) next).blockIds = f.blocks.flatMap fun blk =>
      (if blk.id = r.start then [header.id] else []) ++
        ((if blk.id = r.succ then [tail.id] else []) ++ [blk.id]) := by
    rw [Func.blockIds_expand]
    refine List.flatMap_congr fun blk _ => ?_
    unfold Region.frame
    rw [List.map_append, List.map_append, List.append_assoc]
    split <;> split <;> rfl
  rw [hids]
  refine (List.flatMap_append_perm _ _ _).symm.trans ?_
  rw [flatMap_insert_eq_singleton header.id hf.nodup hf.start_mem]
  exact (flatMap_insert_perm hf.nodup hf.succ_mem).cons _

theorem blockIds_nodup (hf : Framable f r header.id tail.id) :
    (f.expand (r.frame opening header tail) next).blockIds.Nodup := by
  refine hf.blockIds_perm.nodup_iff.2 (List.nodup_cons.2 ⟨?_, List.nodup_cons.2
    ⟨hf.tail_new, hf.nodup⟩⟩)
  rw [List.mem_cons, not_or]
  exact ⟨hf.ne, hf.header_new⟩

theorem mem_blockIds (hf : Framable f r header.id tail.id) :
    x ∈ (f.expand (r.frame opening header tail) next).blockIds ↔
      x = header.id ∨ x = tail.id ∨ x ∈ f.blockIds := by
  rw [hf.blockIds_perm.mem_iff, List.mem_cons, List.mem_cons]

theorem map_ite_singleton {α : Type} {c : Prop} [Decidable c] {a : α} {g : α → α} :
    (if c then [a] else []).map g = if c then [g a] else [] := by
  split <;> rfl

/-- A change of the header. -/
theorem mapBlock_header (hf : Framable f r header.id tail.id) (change : Block → Block)
    (hid : (change header).id = header.id) :
    (f.expand (r.frame opening header tail) next).mapBlock header.id change =
      f.expand (r.frame opening (change header) tail) next := by
  rw [Func.mapBlock_expand hf.blockIds_nodup]
  refine Func.expand_congr fun blk hblk => ?_
  have hold : blk.id ≠ header.id := fun heq => hf.header_new (heq ▸ List.mem_map_of_mem hblk)
  unfold Region.frame
  rw [List.map_append, List.map_append, map_ite_singleton, map_ite_singleton, List.map_singleton,
    if_pos rfl, if_neg hf.ne.symm, if_neg hold, hid]

/-- A change of the tail. -/
theorem mapBlock_tail (hf : Framable f r header.id tail.id) (change : Block → Block)
    (hid : (change tail).id = tail.id) :
    (f.expand (r.frame opening header tail) next).mapBlock tail.id change =
      f.expand (r.frame opening header (change tail)) next := by
  rw [Func.mapBlock_expand hf.blockIds_nodup]
  refine Func.expand_congr fun blk hblk => ?_
  have hold : blk.id ≠ tail.id := fun heq => hf.tail_new (heq ▸ List.mem_map_of_mem hblk)
  unfold Region.frame
  rw [List.map_append, List.map_append, map_ite_singleton, map_ite_singleton, List.map_singleton,
    if_pos rfl, if_neg hf.ne, if_neg hold, hid]

/-- An operation in the header. -/
theorem apply_value_header (hf : Framable f r header.id tail.id) (op : Op) (ty : Ty) :
    (Emit.value header.id op ty).apply (f.expand (r.frame opening header tail) next) =
      (.ok ⟨next.value⟩, f.expand
        (r.frame opening { header with instrs := header.instrs ++ [next.emit op ty] } tail)
        next.step) := by
  rw [Emit.apply_value (hf.mem_blockIds.2 (Or.inl rfl)), Func.push,
    hf.mapBlock_header (fun blk => { blk with instrs := blk.instrs ++ _ }) rfl]
  rfl

/-- An operation in the tail. -/
theorem apply_value_tail (hf : Framable f r header.id tail.id) (op : Op) (ty : Ty) :
    (Emit.value tail.id op ty).apply (f.expand (r.frame opening header tail) next) =
      (.ok ⟨next.value⟩, f.expand
        (r.frame opening header { tail with instrs := tail.instrs ++ [next.emit op ty] })
        next.step) := by
  rw [Emit.apply_value (hf.mem_blockIds.2 (Or.inr (Or.inl rfl))), Func.push,
    hf.mapBlock_tail (fun blk => { blk with instrs := blk.instrs ++ _ }) rfl]
  rfl

/-- The end of the header. -/
theorem apply_terminator_header (hf : Framable f r header.id tail.id) (t : Terminator) :
    (Emit.terminator header.id t).apply (f.expand (r.frame opening header tail) next) =
      (.ok (), f.expand (r.frame opening { header with term := t } tail) next) := by
  rw [Emit.apply_terminator (hf.mem_blockIds.2 (Or.inl rfl)), Func.close,
    hf.mapBlock_header (fun blk => { blk with term := t }) rfl]

/-- The end of the tail. -/
theorem apply_terminator_tail (hf : Framable f r header.id tail.id) (t : Terminator) :
    (Emit.terminator tail.id t).apply (f.expand (r.frame opening header tail) next) =
      (.ok (), f.expand (r.frame opening header { tail with term := t }) next) := by
  rw [Emit.apply_terminator (hf.mem_blockIds.2 (Or.inr (Or.inl rfl))), Func.close,
    hf.mapBlock_tail (fun blk => { blk with term := t }) rfl]

end Framable

/-! ### In front of the region -/

namespace Func

variable {f : Func} {b : BlockId} {i : Instr} {is : List Instr} {next next' : Counters}

/-- Append instructions to a block, and set the counters. -/
def widen (f : Func) (b : BlockId) (is : List Instr) (next : Counters) : Func :=
  f.expand (fun blk => [{ blk with instrs := blk.instrs ++ if blk.id = b then is else [] }]) next

theorem blockIds_widen : (f.widen b is next).blockIds = f.blockIds := by
  rw [widen, blockIds_expand, blockIds, List.map_eq_flatMap]
  rfl

theorem widen_nil (f : Func) (b : BlockId) : f.widen b [] f.next = f := by
  have hsame : ∀ blk ∈ f.blocks,
      [{ blk with instrs := blk.instrs ++ if blk.id = b then [] else [] }] = [blk] := by
    intro blk _
    rw [ite_self, List.append_nil]
  rw [widen, expand_congr hsame, expand_self]

theorem push_widen (hids : f.blockIds.Nodup) :
    (f.widen b is next).push b i next' = f.widen b (is ++ [i]) next' := by
  have hnd : (f.widen b is next).blockIds.Nodup := by rwa [blockIds_widen]
  rw [push, widen, mapBlock_expand hnd, widen]
  show f.expand _ next' = _
  refine expand_congr fun blk _ => ?_
  rw [List.map_singleton]
  split
  · next hb => simp [show blk.id = b from hb]
  · next hb => simp

theorem push_eq_widen (hids : f.blockIds.Nodup) : f.push b i next = f.widen b [i] next := by
  have h : (f.widen b [] f.next).push b i next = f.widen b ([] ++ [i]) next := push_widen hids
  rwa [widen_nil] at h

/-- An operation with a result in front of the region. -/
theorem apply_value_widen (hids : f.blockIds.Nodup) (hb : b ∈ f.blockIds) (op : Op) (ty : Ty) :
    (Emit.value b op ty).apply (f.widen b is next) =
      (.ok ⟨next.value⟩, f.widen b (is ++ [next.emit op ty]) next.step) := by
  rw [Emit.apply_value (by rwa [blockIds_widen]), push_widen hids]
  rfl

/-- An operation without a result in front of the region. -/
theorem apply_effect_widen (hids : f.blockIds.Nodup) (hb : b ∈ f.blockIds) (op : Op) :
    (Emit.effect b op).apply (f.widen b is next) =
      (.ok ⟨next.instr⟩, f.widen b (is ++ [⟨⟨next.instr⟩, none, op, .void⟩])
        { next with instr := next.instr + 1 }) := by
  unfold Emit.effect
  rw [Emit.apply_push (by rwa [blockIds_widen]), push_widen hids]
  rfl

/-- A block that was not made longer. -/
theorem block?_widen {blk : Block} {x : BlockId} (hids : f.blockIds.Nodup)
    (h : f.block? x = some blk) (hx : x ≠ b) : (f.widen b is next).block? x = some blk := by
  obtain ⟨hmem, rfl⟩ := block?_mem h
  have hnd : (f.widen b is next).blockIds.Nodup := by rwa [blockIds_widen]
  refine (block?_eq_some_iff hnd).2 ⟨mem_expand_blocks.2 ⟨blk, hmem, ?_⟩, rfl⟩
  rw [if_neg hx, List.append_nil]
  exact List.mem_singleton.2 rfl

end Func

namespace Terminator

theorem mapTargets_mapTargets (t : Terminator) (r r' : BlockId → BlockId) :
    (t.mapTargets r).mapTargets r' = t.mapTargets fun x => r' (r x) := by
  cases t with
  | switch value otherwise cases => simp [mapTargets, Function.comp_def]
  | _ => rfl

end Terminator

/-- Two splits frame a region. -/
theorem Framable.cut_cut {f : Func} {r : Region} {opening : List Instr} {next : Counters}
    (hf : Framable f r ⟨next.block⟩ ⟨next.block + 1⟩) :
    ((f.widen r.pred opening next).cut r.start 0 "cg.header").cut r.succ 0 "cg.tail" =
      f.expand (r.frame opening ⟨⟨next.block⟩, "cg.header", [], .branch r.start⟩
        ⟨⟨next.block + 1⟩, "cg.tail", [], .branch r.succ⟩)
        { next with block := next.block + 2 } := by
  unfold Func.cut Func.widen
  rw [Func.expand_expand, Func.expand_expand]
  refine Func.expand_congr fun blk hblk => ?_
  have hheader : (⟨next.block⟩ : BlockId) ≠ r.succ := fun heq => hf.header_new (heq ▸ hf.succ_mem)
  have hdetour : ∀ t : Terminator, (t.retarget r.start ⟨next.block⟩).retarget r.succ
      ⟨next.block + 1⟩ = t.mapTargets (r.detour ⟨next.block⟩ ⟨next.block + 1⟩) := by
    intro t
    rw [Terminator.retarget, Terminator.retarget, Terminator.mapTargets_mapTargets]
    congr 1
    funext x
    unfold Region.detour
    by_cases hx : x = r.start
    · rw [if_pos hx, if_pos hx, if_neg hheader]
    · rw [if_neg hx, if_neg hx]
  unfold Region.frame
  simp only [Func.fresh, Func.expand_next, List.flatMap_singleton, List.take_zero, List.drop_zero]
  have hbranch : (Terminator.branch r.start).retarget r.succ ⟨next.block + 1⟩ =
      .branch r.start := by
    rw [Terminator.retarget, Terminator.mapTargets, if_neg hf.start_ne_succ]
  by_cases hs : blk.id = r.start
  · have ht : blk.id ≠ r.succ := fun ht => hf.start_ne_succ (hs.symm.trans ht)
    rw [if_pos hs, if_pos hs, if_neg ht, List.flatMap_cons, List.flatMap_singleton]
    rw [if_neg hheader, if_neg ht, hdetour, hbranch]
    rfl
  · rw [if_neg hs, if_neg hs, List.flatMap_singleton, hdetour]
    by_cases ht : blk.id = r.succ
    · rw [if_pos ht, if_pos ht]
      rfl
    · rw [if_neg ht, if_neg ht]
      rfl

/-! ### Closing the phi node -/

/-- Looking a member up that is the only one to pass the test. -/
theorem find?_eq_some_of_unique {α : Type} {p : α → Bool} {l : List α} {a : α} (ha : a ∈ l)
    (hp : p a = true) (huniq : ∀ b ∈ l, p b = true → b = a) : l.find? p = some a := by
  cases h : l.find? p with
  | none =>
    rw [List.find?_eq_none] at h
    exact absurd hp (h a ha)
  | some b => rw [huniq b (List.mem_of_find?_eq_some h) (List.find?_some h)]

namespace Func

variable {f : Func} {v : ValueId} {blk x : Block} {i : Instr} {rest : List Instr}

/-- To change a definition is to change its block, if no other block defines the value. -/
theorem mapDefinition_eq_mapBlock {b : BlockId} (hids : f.blockIds.Nodup) (hany : ∀ x ∈ f.blocks,
    (x.instrs.any fun j => j.result = some v) = decide (x.id = b)) (change : Instr → Instr) :
    f.mapDefinition v change = f.mapBlock b fun x => { x with
      instrs := mapFirst (fun j => decide (j.result = some v)) change x.instrs } := by
  unfold Func.mapDefinition Func.mapBlock
  dsimp only
  rw [mapFirst_eq_map _ hids fun x hx hdef => of_decide_eq_true (hany x hx ▸ hdef),
    mapFirst_eq_map _ hids fun x _ hid => of_decide_eq_true hid]
  congr 1
  refine List.map_congr_left fun x hx => ?_
  rw [hany x hx]

/-- A value that the first instruction of a block defines, and nothing else. -/
structure DefinesFirst (f : Func) (v : ValueId) (blk : Block) (i : Instr) (rest : List Instr) :
    Prop where
  nodup : f.blockIds.Nodup
  mem : blk ∈ f.blocks
  instrs_eq : blk.instrs = i :: rest
  defines : i.result = some v
  only_first : ∀ j ∈ rest, j.result ≠ some v
  only_block : ∀ x ∈ f.blocks, x = blk ∨ ∀ j ∈ x.instrs, j.result ≠ some v

namespace DefinesFirst

/-- The definition is found. -/
theorem definition?_eq (h : f.DefinesFirst v blk i rest) : f.definition? v = some i := by
  refine find?_eq_some_of_unique ?_ (decide_eq_true h.defines) fun j hj hv => ?_
  · refine List.mem_flatMap.2 ⟨blk, h.mem, ?_⟩
    rw [h.instrs_eq]
    exact List.mem_cons_self
  · obtain ⟨x, hx, hjx⟩ := List.mem_flatMap.1 hj
    rcases h.only_block x hx with rfl | hnone
    · rw [h.instrs_eq] at hjx
      rcases List.mem_cons.1 hjx with hji | hjrest
      · exact hji
      · exact absurd (of_decide_eq_true hv) (h.only_first j hjrest)
    · exact absurd (of_decide_eq_true hv) (hnone j hjx)

/-- The block of the definition is the only one that defines the value. -/
theorem any_eq (h : f.DefinesFirst v blk i rest) (hx : x ∈ f.blocks) :
    (x.instrs.any fun j => j.result = some v) = decide (x.id = blk.id) := by
  rcases h.only_block x hx with rfl | hnone
  · rw [h.instrs_eq, decide_eq_true rfl, List.any_cons, decide_eq_true h.defines, Bool.true_or]
  · have hne : x.id ≠ blk.id := by
      intro heq
      rw [List.inj_on_of_nodup_map h.nodup hx h.mem heq, h.instrs_eq] at hnone
      exact hnone i List.mem_cons_self h.defines
    rw [decide_eq_false hne, List.any_eq_false]
    intro j hj
    simpa using hnone j hj

/-- An edge to a phi node at the beginning of a block is added. -/
theorem apply_addIncoming {id : InstrId} {incoming : List (BlockId × ValueId)} {ty : Ty}
    (h : f.DefinesFirst v blk ⟨id, some v, .phi incoming, ty⟩ rest) (source : BlockId)
    (value : ValueId) :
    (Edit.addIncoming v source value).apply f =
      (.ok (), f.mapBlock blk.id fun x => { x with
        instrs := mapFirst (fun j => decide (j.result = some v))
          (fun j => { j with op := .phi (incoming ++ [(source, value)]) }) x.instrs }) := by
  unfold Edit.addIncoming
  rw [Edit.apply_bind, Edit.apply_require, h.definition?_eq]
  dsimp only
  rw [Edit.apply_modify, mapDefinition_eq_mapBlock h.nodup fun _ => h.any_eq]

end DefinesFirst

end Func

namespace Framable

variable {f : Func} {r : Region} {opening rest : List Instr} {header tail : Block}
  {next : Counters} {id : InstrId} {v nextValue : ValueId} {incoming : List (BlockId × ValueId)}
  {ty : Ty}

/-- The header is a block of the framed function. -/
theorem header_mem (hf : Framable f r header.id tail.id) :
    header ∈ (f.expand (r.frame opening header tail) next).blocks := by
  obtain ⟨blk, hblk, hid⟩ := List.mem_map.1 hf.start_mem
  refine Func.mem_expand_blocks.2 ⟨blk, hblk, ?_⟩
  unfold Region.frame
  rw [if_pos hid]
  exact List.mem_append_left _ (List.mem_append_left _ List.mem_cons_self)

/-- If nothing but the header defines a value, the same holds in the framed function. -/
theorem eq_header_or {x : Block} (hnew : ∀ blk ∈ f.blocks, ∀ i ∈ blk.instrs, i.result ≠ some v)
    (hopening : ∀ i ∈ opening, i.result ≠ some v) (htail : ∀ i ∈ tail.instrs, i.result ≠ some v)
    (hx : x ∈ (f.expand (r.frame opening header tail) next).blocks) :
    x = header ∨ ∀ i ∈ x.instrs, i.result ≠ some v := by
  obtain ⟨blk, hblk, hx⟩ := Func.mem_expand_blocks.1 hx
  unfold Region.frame at hx
  rcases List.mem_append.1 hx with hx | hx
  · rcases List.mem_append.1 hx with hx | hx
    · split at hx
      · exact Or.inl (List.mem_singleton.1 hx)
      · cases hx
    · split at hx
      · exact Or.inr (List.mem_singleton.1 hx ▸ htail)
      · cases hx
  · rw [List.mem_singleton.1 hx]
    refine Or.inr fun i hi => ?_
    rcases List.mem_append.1 hi with hi | hi
    · exact hnew blk hblk i hi
    · split at hi
      · exact hopening i hi
      · cases hi

/-- Closing the phi node that the header begins with, if nothing else defines its value. -/
theorem apply_closePhi (hf : Framable f r header.id tail.id)
    (hheader : header.instrs = ⟨id, some v, .phi incoming, ty⟩ :: rest)
    (hnew : ∀ blk ∈ f.blocks, ∀ i ∈ blk.instrs, i.result ≠ some v)
    (hopening : ∀ i ∈ opening, i.result ≠ some v) (hrest : ∀ i ∈ rest, i.result ≠ some v)
    (htail : ∀ i ∈ tail.instrs, i.result ≠ some v) (source : BlockId) :
    (closePhi v source nextValue).apply (f.expand (r.frame opening header tail) next) =
      (.ok (), f.expand (r.frame opening
        { header with
          instrs := ⟨id, some v, .phi (incoming ++ [(source, nextValue)]), ty⟩ :: rest } tail)
        next) := by
  have hfirst : (f.expand (r.frame opening header tail) next).DefinesFirst v header
      ⟨id, some v, .phi incoming, ty⟩ rest :=
    ⟨hf.blockIds_nodup, hf.header_mem, hheader, rfl, hrest, fun _ hx =>
      eq_header_or hnew hopening htail hx⟩
  have hadd : (Edit.addIncoming v source nextValue).apply
      (f.expand (r.frame opening header tail) next) = (.ok (), f.expand (r.frame opening
        { header with
          instrs := ⟨id, some v, .phi (incoming ++ [(source, nextValue)]), ty⟩ :: rest } tail)
        next) := by
    rw [hfirst.apply_addIncoming, hf.mapBlock_header
      (fun blk => { blk with instrs := mapFirst _ _ blk.instrs }) rfl]
    rw [hheader, mapFirst, if_pos (decide_eq_true rfl)]
  unfold closePhi
  rw [Edit.apply_bind, Edit.apply_get]
  dsimp only
  rw [Edit.apply_adapt, hadd]

end Framable

end BarrierLowering
