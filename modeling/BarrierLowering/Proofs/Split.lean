import BarrierLowering.Proofs.Expand

/-!
# Splitting a block

A split moves the first instructions of a block to a new block in front of it. Walks take the
new block wherever they took the old one before, and then the old one, so that the same things
happen in the same order.

## Main definitions

* `Func.cut` — the function after a split.
* `Func.Splittable`, `Func.Cuttable` — the split is allowed, and the numbers are in order.
* `Func.Cuts` — some splits in a row.

## Main results

* `Edit.apply_splitLabeled`, `Func.Splittable.apply` — a split that is allowed succeeds.
* `Func.Splittable.edge_iff`, `Func.Splittable.walk_down` — the edges and walks after a split.
* `Func.Splittable.wellFormed_cut` — a split keeps a function well formed.
* `Func.Cuts.events_down`, `Func.Cuts.events_up` — the same things happen after some splits.
-/

namespace BarrierLowering

/-! ### Renamed targets -/

namespace Terminator

variable {t : Terminator} {r : BlockId → BlockId}

/-- A terminator whose targets keep their names stays as it is. -/
theorem mapTargets_id (t : Terminator) : t.mapTargets id = t := by
  cases t with
  | switch value otherwise cases => simp [mapTargets]
  | _ => rfl

/-- Only the names of the targets count. -/
theorem mapTargets_congr {r' : BlockId → BlockId} (h : ∀ x ∈ t.targets, r x = r' x) :
    t.mapTargets r = t.mapTargets r' := by
  cases t with
  | ret value => rfl
  | unreachable => rfl
  | branch target => rw [mapTargets, mapTargets, h target List.mem_cons_self]
  | condBranch condition onTrue onFalse =>
    rw [mapTargets, mapTargets, h onTrue (by simp [targets]), h onFalse (by simp [targets])]
  | switch value otherwise cases =>
    rw [mapTargets, mapTargets, h otherwise (by simp [targets])]
    congr 1
    refine List.map_congr_left fun x hx => ?_
    exact Prod.ext rfl (h x.2 (List.mem_cons_of_mem _ (List.mem_map_of_mem hx)))

@[simp] theorem targets_mapTargets : (t.mapTargets r).targets = t.targets.map r := by
  cases t with
  | switch value otherwise cases => simp [mapTargets, targets, Function.comp_def]
  | _ => rfl

@[simp] theorem operands_mapTargets : (t.mapTargets r).operands = t.operands := by
  cases t with
  | ret value => cases value <;> rfl
  | _ => rfl

@[simp] theorem targets_retarget {old new : BlockId} : (t.retarget old new).targets =
    t.targets.map fun target => if target = old then new else target :=
  targets_mapTargets

@[simp] theorem operands_retarget {old new : BlockId} :
    (t.retarget old new).operands = t.operands :=
  operands_mapTargets

end Terminator

/-! ### Leading phi nodes -/

/-- The phi nodes lead a block if none of them comes after another instruction. -/
theorem Block.phis_lead_iff {blk : Block} :
    (∀ i ∈ blk.instrs.drop blk.phiCount, i.isPhi = false) ↔
      blk.instrs.Pairwise fun i j => j.isPhi = true → i.isPhi = true := by
  rw [Block.phiCount]
  induction blk.instrs with
  | nil => simp
  | cons i is ih =>
    by_cases hi : i.isPhi = true
    · rw [List.takeWhile_cons_of_pos hi, List.length_cons, List.drop_succ_cons, ih,
        List.pairwise_cons]
      exact ⟨fun h => ⟨fun _ _ _ => hi, h⟩, fun h => h.2⟩
    · rw [List.takeWhile_cons_of_neg hi, List.length_nil, List.drop_zero, List.pairwise_cons]
      constructor
      · intro h
        refine ⟨fun j hj hphi => ?_, ?_⟩
        · rw [h j (List.mem_cons_of_mem _ hj)] at hphi
          cases hphi
        · refine List.Pairwise.imp_of_mem (R := fun _ _ => True) ?_
            (List.pairwise_of_forall fun _ _ => trivial)
          intro j k _ hk _ hphi
          rw [h k (List.mem_cons_of_mem _ hk)] at hphi
          cases hphi
      · rintro ⟨hfirst, -⟩ j hj
        rcases List.mem_cons.1 hj with rfl | hj
        · exact Bool.eq_false_iff.2 hi
        · exact Bool.eq_false_iff.2 fun hphi => hi (hfirst j hj hphi)

theorem Block.phiCount_eq_zero {blk : Block} (h : ∀ i ∈ blk.instrs, i.isPhi = false) :
    blk.phiCount = 0 := by
  rw [Block.phiCount]
  cases hinstrs : blk.instrs with
  | nil => rfl
  | cons i is =>
    have hi : i.isPhi = false := h i (hinstrs ▸ List.mem_cons_self)
    rw [List.takeWhile_cons_of_neg (by rw [hi]; exact Bool.false_ne_true), List.length_nil]

/-- A run of instructions without phi nodes reads nothing on the edge into its block. -/
theorem Block.phiReads_eq_nil {blk : Block} {a : BlockId}
    (h : ∀ i ∈ blk.instrs, i.isPhi = false) : blk.phiReads a = [] := by
  rw [Block.phiReads, List.flatMap_eq_nil_iff]
  intro i hi
  rw [Instr.incoming_eq_nil (h i hi)]
  rfl

namespace Func

/-- The identifier that the next block will have. -/
def fresh (f : Func) : BlockId := ⟨f.next.block⟩

/-- The function after a split. -/
def cut (f : Func) (b : BlockId) (index : Nat) (label : String) : Func :=
  f.expand
    (fun blk =>
      if blk.id = b then
        [⟨f.fresh, label, blk.instrs.take index, .branch b⟩,
          { blk with instrs := blk.instrs.drop index, term := blk.term.retarget b f.fresh }]
      else [{ blk with term := blk.term.retarget b f.fresh }])
    { f.next with block := f.next.block + 1 }

/-- The block identifiers after a split: the new one, and those from before. -/
theorem blockIds_cut_perm {f : Func} {b : BlockId} {index : Nat} {label : String}
    (hids : f.blockIds.Nodup) (hb : b ∈ f.blockIds) :
    (f.cut b index label).blockIds.Perm (f.fresh :: f.blockIds) := by
  refine (List.Perm.of_eq ?_).trans (flatMap_insert_perm hids hb)
  rw [cut, blockIds_expand]
  refine List.flatMap_congr fun x _ => ?_
  by_cases hx : x.id = b <;> simp [hx]

/-- The other blocks only take the new block for the old one. -/
theorem block?_cut_of_ne {f : Func} {b x : BlockId} {index : Nat} {label : String} {xblk : Block}
    (hids : (f.cut b index label).blockIds.Nodup) (hx : x ≠ b) (hblk : f.block? x = some xblk) :
    (f.cut b index label).block? x = some { xblk with term := xblk.term.retarget b f.fresh } := by
  obtain ⟨hmem, rfl⟩ := block?_mem hblk
  refine (block?_eq_some_iff hids).2 ⟨mem_expand_blocks.2 ⟨xblk, hmem, ?_⟩, rfl⟩
  rw [if_neg hx]
  exact List.mem_singleton.2 rfl

/-- The block `b`, which is `blk`, can be split at `index`. -/
structure Splittable (f : Func) (b : BlockId) (index : Nat) (blk : Block) : Prop where
  shaped : f.Shaped
  blocks_lt : ∀ x ∈ f.blockIds, x.index < f.next.block
  block : f.block? b = some blk
  phis_le : blk.phiCount ≤ index
  le_length : index ≤ blk.instrs.length

/-- The block can be split, and all numbers of the function are in order. -/
structure Cuttable (f : Func) (b : BlockId) (index : Nat) (blk : Block) : Prop
    extends Func.Splittable f b index blk where
  numbered : f.Numbered

end Func

/-- A split succeeds if the cut is in the block and not among the phi nodes. -/
theorem Edit.apply_splitLabeled {f : Func} {b : BlockId} {index : Nat} {blk : Block}
    {label : String} (hids : f.blockIds.Nodup) (hb : f.block? b = some blk)
    (hphis : blk.phiCount ≤ index) (hlen : index ≤ blk.instrs.length) :
    (Edit.splitLabeled b index label).apply f = (.ok f.fresh, f.cut b index label) := by
  have hcut : cutBlock b index f.fresh label (f.retarget b f.fresh).blocks =
      (f.cut b index label).blocks := by
    have hids' : ((f.retarget b f.fresh).blocks.map (·.id)).Nodup := by
      rw [Func.retarget, List.map_map]
      exact hids
    rw [cutBlock_eq_flatMap hids', Func.cut, Func.expand_blocks, Func.retarget, List.flatMap_map]
  unfold Edit.splitLabeled
  simp only [apply_bind, apply_require, hb, Nat.not_lt.2 hlen, Nat.not_lt.2 hphis, if_false,
    apply_pure, freshBlock, apply_modifyGet, apply_modify]
  show (Except.ok f.fresh, { f with
    blocks := cutBlock b index f.fresh label (f.retarget b f.fresh).blocks
    next := { f.next with block := f.next.block + 1 } }) = _
  rw [hcut]
  rfl

/-- A split succeeds, or it fails and changes nothing. -/
theorem Edit.splitLabeled_cases (f : Func) (b : BlockId) (index : Nat) (label : String) :
    (∃ e, (Edit.splitLabeled b index label).apply f = (.error e, f)) ∨
      ∃ blk, f.block? b = some blk ∧ blk.phiCount ≤ index ∧ index ≤ blk.instrs.length ∧
        (Edit.splitLabeled b index label).apply f = (.ok f.fresh,
          { f with
            blocks := cutBlock b index f.fresh label (f.retarget b f.fresh).blocks
            next := { f.next with block := f.next.block + 1 } }) := by
  unfold splitLabeled
  rw [apply_bind, apply_require]
  cases f.block? b with
  | none => exact .inl ⟨_, rfl⟩
  | some blk =>
    by_cases hlen : blk.instrs.length < index
    · simp [hlen]
    · by_cases hphis : index < blk.phiCount
      · simp [hlen, hphis]
      · refine .inr ⟨blk, rfl, Nat.not_lt.1 hphis, Nat.not_lt.1 hlen, ?_⟩
        simp only [hlen, hphis, if_false, apply_bind, apply_pure, freshBlock, apply_modifyGet,
          apply_modify]
        rfl

/-- A split that succeeds was allowed. -/
theorem Edit.splitLabeled_eq_ok {f g : Func} {b n : BlockId} {index : Nat} {label : String}
    (h : (Edit.splitLabeled b index label).apply f = (.ok n, g)) :
    ∃ blk, f.block? b = some blk ∧ blk.phiCount ≤ index ∧ index ≤ blk.instrs.length ∧
      g.blocks = cutBlock b index f.fresh label (f.retarget b f.fresh).blocks := by
  rcases splitLabeled_cases f b index label with ⟨e, he⟩ | ⟨blk, hb, hphis, hlen, hok⟩
  · rw [he] at h
    cases h
  · rw [hok] at h
    cases h
    exact ⟨blk, hb, hphis, hlen, rfl⟩

namespace Func.Splittable

variable {f : Func} {b a c x : BlockId} {index : Nat} {blk xblk : Block} {label : String}
  {w : List BlockId}

/-- A split that is allowed succeeds. -/
theorem apply (h : f.Splittable b index blk) :
    (Edit.splitLabeled b index label).apply f = (.ok f.fresh, f.cut b index label) :=
  Edit.apply_splitLabeled h.shaped.blocks_nodup h.block h.phis_le h.le_length

/-! ### The blocks after a split -/

theorem mem (h : f.Splittable b index blk) : blk ∈ f.blocks := (block?_mem h.block).1

theorem id (h : f.Splittable b index blk) : blk.id = b := (block?_mem h.block).2

theorem fresh_not_mem (h : f.Splittable b index blk) : f.fresh ∉ f.blockIds :=
  fun hmem => Nat.lt_irrefl _ (h.blocks_lt _ hmem)

theorem ne_fresh (h : f.Splittable b index blk) : b ≠ f.fresh := fun heq =>
  h.fresh_not_mem (heq ▸ mem_blockIds_iff.2 ⟨blk, h.block⟩)

/-- The block identifiers after a split: the new one, and those from before. -/
theorem blockIds_perm (h : f.Splittable b index blk) :
    (f.cut b index label).blockIds.Perm (f.fresh :: f.blockIds) :=
  blockIds_cut_perm h.shaped.blocks_nodup (mem_blockIds_iff.2 ⟨blk, h.block⟩)

theorem blockIds_nodup (h : f.Splittable b index blk) : (f.cut b index label).blockIds.Nodup :=
  h.blockIds_perm.nodup_iff.2 (List.nodup_cons.2 ⟨h.fresh_not_mem, h.shaped.blocks_nodup⟩)

/-- The new block holds the first instructions. -/
theorem block?_fresh (h : f.Splittable b index blk) : (f.cut b index label).block? f.fresh =
    some ⟨f.fresh, label, blk.instrs.take index, .branch b⟩ := by
  refine (block?_eq_some_iff h.blockIds_nodup).2 ⟨mem_expand_blocks.2 ⟨blk, h.mem, ?_⟩, rfl⟩
  rw [if_pos h.id]
  exact List.mem_cons_self

/-- The old block holds the others. -/
theorem block?_self (h : f.Splittable b index blk) : (f.cut b index label).block? b =
    some { blk with
      instrs := blk.instrs.drop index
      term := blk.term.retarget b f.fresh } := by
  refine (block?_eq_some_iff h.blockIds_nodup).2 ⟨mem_expand_blocks.2 ⟨blk, h.mem, ?_⟩, h.id⟩
  rw [if_pos h.id]
  exact List.mem_cons_of_mem _ List.mem_cons_self

/-- The other blocks only take the new block for the old one. -/
theorem block?_of_ne (h : f.Splittable b index blk) (hx : x ≠ b) (hblk : f.block? x = some xblk) :
    (f.cut b index label).block? x =
      some { xblk with term := xblk.term.retarget b f.fresh } :=
  block?_cut_of_ne h.blockIds_nodup hx hblk

/-- The instructions stay where they are in the whole function. -/
theorem instrs_cut : (f.cut b index label).instrs = f.instrs := by
  rw [cut, instrs_expand, instrs]
  refine List.flatMap_congr fun x _ => ?_
  split
  · rw [List.flatMap_cons, List.flatMap_singleton, List.take_append_drop]
  · rw [List.flatMap_singleton]

theorem paramValues_cut : (f.cut b index label).paramValues = f.paramValues := rfl

/-! ### The edges after a split -/

/-- The new block leads to the old one. -/
theorem edge_fresh (h : f.Splittable b index blk) :
    (f.cut b index label).graph.Edge f.fresh c ↔ c = b := by
  rw [Func.edge_iff]
  simp [h.block?_fresh, Terminator.targets]

/-- No edge led to the new block before. -/
theorem not_edge_fresh (h : f.Splittable b index blk) : ¬ f.graph.Edge a f.fresh := by
  rw [Func.edge_iff]
  rintro ⟨ablk, ha, hmem⟩
  exact h.fresh_not_mem (h.shaped.targets_exist ablk (block?_mem ha).1 _ hmem)

/-- The edges to the old block lead to the new one now. -/
theorem edge_iff (h : f.Splittable b index blk) (ha : a ≠ f.fresh) :
    (f.cut b index label).graph.Edge a c ↔
      if c = f.fresh then f.graph.Edge a b else c ≠ b ∧ f.graph.Edge a c := by
  have hsource : (f.cut b index label).graph.Edge a c ↔ ∃ ablk, f.block? a = some ablk ∧
      ∃ t ∈ ablk.term.targets, (if t = b then f.fresh else t) = c := by
    rw [Func.edge_iff]
    by_cases hab : a = b
    · subst hab
      simp [h.block?_self, h.block]
    · cases hablk : f.block? a with
      | some ablk => simp [h.block?_of_ne hab hablk]
      | none =>
        have hnone : (f.cut b index label).block? a = none := by
          rw [block?_eq_none_iff, h.blockIds_perm.mem_iff, List.mem_cons, not_or]
          exact ⟨ha, block?_eq_none_iff.1 hablk⟩
        simp [hnone]
  rw [hsource]
  split
  · next hc =>
    rw [Func.edge_iff]
    constructor
    · rintro ⟨ablk, hablk, t, ht, heq⟩
      refine ⟨ablk, hablk, ?_⟩
      by_cases htb : t = b
      · exact htb ▸ ht
      · rw [if_neg htb, hc] at heq
        exact absurd (Func.edge_iff.2 ⟨ablk, hablk, heq ▸ ht⟩) h.not_edge_fresh
    · rintro ⟨ablk, hablk, hb⟩
      exact ⟨ablk, hablk, b, hb, by rw [if_pos rfl, hc]⟩
  · next hc =>
    rw [Func.edge_iff]
    constructor
    · rintro ⟨ablk, hablk, t, ht, heq⟩
      by_cases htb : t = b
      · rw [if_pos htb] at heq
        exact absurd heq.symm hc
      · rw [if_neg htb] at heq
        exact ⟨heq ▸ htb, ablk, hablk, heq ▸ ht⟩
    · rintro ⟨hcb, ablk, hablk, hct⟩
      exact ⟨ablk, hablk, c, hct, if_neg hcb⟩

/-- The entry is the new block if it was the old one. -/
theorem entryId?_eq (h : f.Splittable b index blk) : (f.cut b index label).entryId? =
    f.entryId?.map fun e => if e = b then f.fresh else e := by
  obtain ⟨first, rest, hblocks⟩ := List.exists_cons_of_ne_nil h.shaped.nonempty
  rw [entryId?, entryId?, entry?, entry?, cut, expand_blocks, hblocks, List.flatMap_cons]
  by_cases hfirst : first.id = b <;> simp [hfirst]

/-! ### The events after a split -/

/-- After the split there are no phi nodes in the old block. -/
theorem not_phi (h : f.Splittable b index blk) {i : Instr} (hi : i ∈ blk.instrs.drop index) :
    i.isPhi = false := by
  refine h.shaped.phis_lead blk h.mem i ?_
  obtain ⟨k, rfl⟩ := Nat.exists_eq_add_of_le h.phis_le
  rw [← List.drop_drop] at hi
  exact List.mem_of_mem_drop hi

theorem eventsOf_fresh (h : f.Splittable b index blk) :
    (f.cut b index label).eventsOf f.fresh = (blk.instrs.take index).flatMap Instr.events := by
  rw [eventsOf_of_block? h.block?_fresh]
  exact List.append_nil _

theorem eventsOf_self (h : f.Splittable b index blk) : (f.cut b index label).eventsOf b =
    (blk.instrs.drop index).flatMap Instr.events ++ blk.term.operands.map .read := by
  rw [eventsOf_of_block? h.block?_self, Block.events, Terminator.operands_retarget]

/-- The two parts of the block together do what it did before. -/
theorem eventsOf_parts (h : f.Splittable b index blk) : (f.cut b index label).eventsOf f.fresh ++
    (f.cut b index label).eventsOf b = f.eventsOf b := by
  rw [h.eventsOf_fresh, h.eventsOf_self, ← List.append_assoc, ← List.flatMap_append,
    List.take_append_drop, eventsOf_of_block? h.block]
  rfl

theorem eventsOf_of_ne (h : f.Splittable b index blk) (hx : x ≠ b) (hblk : f.block? x = some xblk) :
    (f.cut b index label).eventsOf x = f.eventsOf x := by
  rw [eventsOf_of_block? (h.block?_of_ne hx hblk), eventsOf_of_block? hblk, Block.events,
    Terminator.operands_retarget]
  rfl

/-- The phi nodes are in the new block. -/
theorem edgeEvents_fresh (h : f.Splittable b index blk) :
    (f.cut b index label).edgeEvents a f.fresh = f.edgeEvents a b := by
  have hrest : Block.phiReads ⟨b, label, blk.instrs.drop index, .unreachable⟩ a = [] :=
    Block.phiReads_eq_nil fun _ => h.not_phi
  rw [Block.phiReads] at hrest
  rw [edgeEvents_of_block? h.block?_fresh, edgeEvents_of_block? h.block, Block.phiReads,
    Block.phiReads, ← List.take_append_drop index blk.instrs, List.flatMap_append, hrest,
    List.append_nil, List.take_append_drop]

theorem edgeEvents_self (h : f.Splittable b index blk) :
    (f.cut b index label).edgeEvents a b = [] := by
  rw [edgeEvents_of_block? h.block?_self]
  exact Block.phiReads_eq_nil fun _ => h.not_phi

theorem edgeEvents_of_ne (h : f.Splittable b index blk) (hx : x ≠ b)
    (hblk : f.block? x = some xblk) :
    (f.cut b index label).edgeEvents a x = f.edgeEvents a x := by
  rw [edgeEvents_of_block? (h.block?_of_ne hx hblk), edgeEvents_of_block? hblk]
  rfl

/-! ### The walks after a split -/

/-- A walk after the split, as far as it comes from a walk before: without the new block it is
one, and the same things happen. A walk that has come to the new block goes on to the old one. -/
theorem walk_down (h : f.Splittable b index blk) :
    ∀ w x, (f.cut b index label).graph.IsWalk (w ++ [x]) →
      (x ≠ f.fresh → ∃ w₀, f.graph.IsWalk (w₀ ++ [x]) ∧ w₀ = w.filter (· ≠ f.fresh) ∧
        (f.cut b index label).events (w ++ [x]) = f.events (w₀ ++ [x])) ∧
      (x = f.fresh → ∃ w₀, f.graph.IsWalk (w₀ ++ [b]) ∧ w₀ = w.filter (· ≠ f.fresh) ∧
        (f.cut b index label).events (w ++ [x] ++ [b]) = f.events (w₀ ++ [b])) := by
  have hnode : ∀ {w x}, f.graph.IsWalk (w ++ [x]) → ∃ xblk, f.block? x = some xblk := fun hw =>
    mem_blockIds_iff.1 (mem_blockIds_of_isWalk h.shaped.targets_exist hw)
  refine Graph.IsWalk.snocInduction (fun e he => ?_) fun w u v hw huv ih => ?_
  · obtain ⟨e₀, he₀, heq⟩ := Option.map_eq_some_iff.1 (h.entryId?_eq.symm.trans he)
    have hwalk : f.graph.IsWalk ([] ++ [e₀]) := Graph.isWalk_singleton.2 he₀
    by_cases heb : e₀ = b
    · subst heb
      rw [if_pos rfl] at heq
      refine ⟨fun hne => absurd heq.symm hne, fun hex => ⟨[], hwalk, rfl, ?_⟩⟩
      rw [hex, events_snoc, h.edgeEvents_self, List.append_nil, List.nil_append, events_singleton,
        h.eventsOf_parts]
      rfl
    · rw [if_neg heb] at heq
      subst heq
      refine ⟨fun _ => ⟨[], hwalk, rfl, ?_⟩, fun hex => ?_⟩
      · obtain ⟨eblk, heblk⟩ := hnode hwalk
        exact h.eventsOf_of_ne heb heblk
      · exact absurd (hex ▸ entryId?_mem he₀) h.fresh_not_mem
  · by_cases hu : u = f.fresh
    · -- the new block leads nowhere but to the old one
      subst hu
      obtain rfl := h.edge_fresh.1 huv
      obtain ⟨w₀, hw₀, hfilter, hevents⟩ := ih.2 rfl
      refine ⟨fun _ => ⟨w₀, hw₀, ?_, hevents⟩, fun heq => absurd heq h.ne_fresh⟩
      rw [hfilter, List.filter_append]
      simp
    · obtain ⟨w₀, hw₀, hfilter, hevents⟩ := ih.1 hu
      have hlonger : w₀ ++ [u] = (w ++ [u]).filter (· ≠ f.fresh) := by
        rw [List.filter_append, ← hfilter]
        simp [hu]
      rw [h.edge_iff hu] at huv
      constructor
      · intro hv
        rw [if_neg hv] at huv
        have hwalk := hw₀.snoc huv.2
        obtain ⟨vblk, hvblk⟩ := hnode hwalk
        refine ⟨w₀ ++ [u], hwalk, hlonger, ?_⟩
        rw [events_snoc, events_snoc, hevents, h.edgeEvents_of_ne huv.1 hvblk,
          h.eventsOf_of_ne huv.1 hvblk]
      · intro hv
        subst hv
        rw [if_pos rfl] at huv
        refine ⟨w₀ ++ [u], hw₀.snoc huv, hlonger, ?_⟩
        rw [events_snoc, events_snoc, events_snoc, hevents, h.edgeEvents_fresh, h.edgeEvents_self,
          List.append_nil, List.append_assoc _ (eventsOf _ _), h.eventsOf_parts]

/-- Every walk from before the split is taken after it. -/
theorem walk_up (h : f.Splittable b index blk) (label : String) :
    ∀ w x, f.graph.IsWalk (w ++ [x]) → ∃ w', (f.cut b index label).graph.IsWalk (w' ++ [x]) ∧
      w'.filter (· ≠ f.fresh) = w ∧
      (f.cut b index label).events (w' ++ [x]) = f.events (w ++ [x]) := by
  have hdown : ∀ {w w' x}, f.graph.IsWalk (w ++ [x]) →
      (f.cut b index label).graph.IsWalk (w' ++ [x]) → w'.filter (· ≠ f.fresh) = w →
      (f.cut b index label).events (w' ++ [x]) = f.events (w ++ [x]) := by
    rintro w w' x hw hw' rfl
    have hx : x ≠ f.fresh := fun heq => by
      have hmem := mem_blockIds_of_isWalk h.shaped.targets_exist hw
      exact h.fresh_not_mem (heq ▸ hmem)
    obtain ⟨w₀, -, rfl, hevents⟩ := (h.walk_down w' x hw').1 hx
    exact hevents
  have hwalks : ∀ w x, f.graph.IsWalk (w ++ [x]) → ∃ w',
      (f.cut b index label).graph.IsWalk (w' ++ [x]) ∧ w'.filter (· ≠ f.fresh) = w := by
    refine Graph.IsWalk.snocInduction (fun e he => ?_) fun w u v hw huv ih => ?_
    · have he' : (f.cut b index label).graph.entry = some (if e = b then f.fresh else e) := by
        show (f.cut b index label).entryId? = _
        rw [h.entryId?_eq, show f.entryId? = some e from he, Option.map_some]
      by_cases heb : e = b
      · subst heb
        rw [if_pos rfl] at he'
        refine ⟨[f.fresh], ?_, by simp⟩
        exact Graph.IsWalk.snoc (w := []) (Graph.isWalk_singleton.2 he') (h.edge_fresh.2 rfl)
      · rw [if_neg heb] at he'
        exact ⟨[], Graph.isWalk_singleton.2 he', rfl⟩
    · obtain ⟨w', hw', rfl⟩ := ih
      have hu : u ≠ f.fresh := fun heq => by
        have hmem := mem_blockIds_of_isWalk h.shaped.targets_exist hw
        exact h.fresh_not_mem (heq ▸ hmem)
      by_cases hv : v = b
      · subst hv
        have hstep : (f.cut v index label).graph.Edge u f.fresh := by
          rwa [h.edge_iff hu, if_pos rfl]
        refine ⟨w' ++ [u] ++ [f.fresh], (hw'.snoc hstep).snoc (h.edge_fresh.2 rfl), ?_⟩
        simp [List.filter_append, hu]
      · have hne : v ≠ f.fresh := fun heq => h.not_edge_fresh (heq ▸ huv)
        have hstep : (f.cut b index label).graph.Edge u v := by
          rw [h.edge_iff hu, if_neg hne]
          exact ⟨hv, huv⟩
        refine ⟨w' ++ [u], hw'.snoc hstep, ?_⟩
        simp [List.filter_append, hu]
  intro w x hw
  obtain ⟨w', hw', hfilter⟩ := hwalks w x hw
  exact ⟨w', hw', hfilter, hdown hw hw' hfilter⟩

/-! ### Well-formedness after a split -/

/-- The blocks after a split. -/
theorem mem_blocks (h : f.Splittable b index blk) {new : Block}
    (hnew : new ∈ (f.cut b index label).blocks) :
    new = ⟨f.fresh, label, blk.instrs.take index, .branch b⟩ ∨
    new = { blk with
      instrs := blk.instrs.drop index
      term := blk.term.retarget b f.fresh } ∨
    ∃ xblk ∈ f.blocks, xblk.id ≠ b ∧ new = { xblk with term := xblk.term.retarget b f.fresh } := by
  obtain ⟨xblk, hmem, hx⟩ := mem_expand_blocks.1 hnew
  by_cases hid : xblk.id = b
  · have hblk : xblk = blk :=
      List.inj_on_of_nodup_map h.shaped.blocks_nodup hmem h.mem (hid.trans h.id.symm)
    rw [if_pos hid, hblk] at hx
    rcases List.mem_cons.1 hx with hx | hx
    · exact Or.inl hx
    · exact Or.inr (Or.inl (List.mem_singleton.1 hx))
  · rw [if_neg hid] at hx
    exact Or.inr (Or.inr ⟨xblk, hmem, hid, List.mem_singleton.1 hx⟩)

/-- The sources of the edges into a block, renamed or not, are the same. -/
theorem predecessors_perm (h : f.Splittable b index blk) (label : String) :
    ((f.cut b index label).predecessors f.fresh).Perm (f.predecessors b) ∧
    ∀ x, x ≠ b → x ≠ f.fresh →
      ((f.cut b index label).predecessors x).Perm (f.predecessors x) := by
  have hpreds : ∀ x y, (∀ a, (f.cut b index label).graph.Edge a x ↔ f.graph.Edge a y) →
      ((f.cut b index label).predecessors x).Perm (f.predecessors y) := by
    intro x y hiff
    rw [List.perm_ext_iff_of_nodup (nodup_predecessors h.blockIds_nodup)
      (nodup_predecessors h.shaped.blocks_nodup)]
    intro a
    rw [mem_predecessors_iff_edge h.blockIds_nodup,
      mem_predecessors_iff_edge h.shaped.blocks_nodup, hiff]
  have hsource : ∀ x, ¬ f.graph.Edge f.fresh x := fun x hx =>
    h.fresh_not_mem (Graph.Edge.mem_nodes hx)
  refine ⟨hpreds _ _ fun a => ?_, fun x hx hne => hpreds _ _ fun a => ?_⟩
  · by_cases ha : a = f.fresh
    · rw [ha, h.edge_fresh]
      exact iff_of_false h.ne_fresh.symm (hsource b)
    · rw [h.edge_iff ha, if_pos rfl]
  · by_cases ha : a = f.fresh
    · rw [ha, h.edge_fresh]
      exact iff_of_false hx (hsource x)
    · rw [h.edge_iff ha, if_neg hne, and_iff_right hx]

/-- A split keeps a function in shape. -/
theorem shaped_cut (h : f.Splittable b index blk) : (f.cut b index label).Shaped := by
  have hresults : (f.cut b index label).results = f.results := by
    rw [results, instrs_cut, results]
  have hids : ∀ x, x ∈ (f.cut b index label).blockIds ↔ x = f.fresh ∨ x ∈ f.blockIds := fun x => by
    rw [h.blockIds_perm.mem_iff, List.mem_cons]
  have hb : b ∈ f.blockIds := mem_blockIds_iff.2 ⟨blk, h.block⟩
  have htargets : ∀ xblk ∈ f.blocks, ∀ t ∈ (xblk.term.retarget b f.fresh).targets,
      t ∈ (f.cut b index label).blockIds := by
    intro xblk hmem t ht
    rw [Terminator.targets_retarget, List.mem_map] at ht
    obtain ⟨t, ht, rfl⟩ := ht
    rw [hids]
    split
    · exact Or.inl rfl
    · exact Or.inr (h.shaped.targets_exist xblk hmem t ht)
  have hpairs : ∀ xblk ∈ f.blocks,
      xblk.instrs.Pairwise fun i j => j.isPhi = true → i.isPhi = true :=
    fun xblk hmem => Block.phis_lead_iff.1 (h.shaped.phis_lead xblk hmem)
  obtain ⟨hfresh, hothers⟩ := h.predecessors_perm label
  refine ⟨?_, h.blockIds_nodup, ?_, ?_, ?_, ?_, ?_, ?_⟩
  · intro hnil
    have hmem := (hids b).2 (Or.inr hb)
    rw [blockIds, hnil] at hmem
    cases hmem
  · intro new hnew t ht
    rcases h.mem_blocks hnew with rfl | rfl | ⟨xblk, hmem, -, rfl⟩
    · rw [List.mem_singleton.1 ht, hids]
      exact Or.inr hb
    · exact htargets blk h.mem t ht
    · exact htargets xblk hmem t ht
  · rw [hresults]
    exact h.shaped.results_nodup
  · rw [hresults]
    exact h.shaped.results_fresh
  · intro new hnew
    rw [Block.phis_lead_iff]
    rcases h.mem_blocks hnew with rfl | rfl | ⟨xblk, hmem, -, rfl⟩
    · exact (hpairs blk h.mem).sublist (List.take_sublist _ _)
    · exact (hpairs blk h.mem).sublist (List.drop_sublist _ _)
    · exact hpairs xblk hmem
  · intro new hnew i hi hphi
    rcases h.mem_blocks hnew with rfl | rfl | ⟨xblk, hmem, hne, rfl⟩
    · have hmatch := h.shaped.phis_match blk h.mem i (List.mem_of_mem_take hi) hphi
      rw [h.id] at hmatch
      exact hmatch.trans hfresh.symm
    · rw [h.not_phi hi] at hphi
      cases hphi
    · have hx : xblk.id ≠ f.fresh := fun heq =>
        h.fresh_not_mem (heq ▸ List.mem_map_of_mem hmem)
      exact (h.shaped.phis_match xblk hmem i hi hphi).trans (hothers xblk.id hne hx).symm
  · intro new hnew
    rw [hresults, paramValues_cut]
    rcases h.mem_blocks hnew with rfl | rfl | ⟨xblk, hmem, -, rfl⟩
    · exact ⟨fun i hi => (h.shaped.operands_defined blk h.mem).1 i (List.mem_of_mem_take hi),
        fun v hv => absurd hv List.not_mem_nil⟩
    · obtain ⟨hinstrs, hterm⟩ := h.shaped.operands_defined blk h.mem
      refine ⟨fun i hi => hinstrs i (List.mem_of_mem_drop hi), fun v hv => hterm v ?_⟩
      rwa [Terminator.operands_retarget] at hv
    · obtain ⟨hinstrs, hterm⟩ := h.shaped.operands_defined xblk hmem
      refine ⟨hinstrs, fun v hv => hterm v ?_⟩
      rwa [Terminator.operands_retarget] at hv

/-- What happens on a walk after the split is the beginning of what happened before. -/
theorem events_down (h : f.Splittable b index blk) {w : List BlockId}
    (hw : (f.cut b index label).graph.IsWalk w) :
    ∃ w₀, f.graph.IsWalk w₀ ∧ (f.cut b index label).events w <+: f.events w₀ := by
  obtain ⟨w, x, rfl⟩ := hw.exists_snoc
  by_cases hx : x = f.fresh
  · obtain ⟨w₀, hw₀, -, hevents⟩ := (h.walk_down w x hw).2 hx
    exact ⟨_, hw₀, hevents ▸ events_prefix _ _ _⟩
  · obtain ⟨w₀, hw₀, -, hevents⟩ := (h.walk_down w x hw).1 hx
    exact ⟨_, hw₀, hevents ▸ List.prefix_rfl⟩

/-- A split keeps a function well formed. -/
theorem wellFormed_cut (h : f.Splittable b index blk) (hf : f.WellFormed) :
    (f.cut b index label).WellFormed := by
  refine ⟨h.shaped_cut, fun w hw => ?_⟩
  obtain ⟨w₀, hw₀, hprefix⟩ := h.events_down hw
  exact (hf.sound w₀ hw₀).of_initial hprefix

end Func.Splittable

/-- A split keeps the numbers of a function in order. -/
theorem Func.Cuttable.numbered_cut {f : Func} {b : BlockId} {index : Nat} {blk : Block}
    {label : String} (h : f.Cuttable b index blk) : (f.cut b index label).Numbered := by
  refine ⟨fun x hx => ?_, h.numbered.params_lt, ?_, ?_, ?_⟩
  · rcases List.mem_cons.1 (h.blockIds_perm.mem_iff.1 hx) with rfl | hx
    · exact Nat.lt_succ_self _
    · exact Nat.lt_succ_of_lt (h.numbered.blocks_lt x hx)
  · rw [results, Splittable.instrs_cut]
    exact h.numbered.results_lt
  · rw [Splittable.instrs_cut]
    exact h.numbered.instrs_lt
  · rw [Splittable.instrs_cut]
    exact h.numbered.instrs_nodup


/-! ### Splits in a row -/

namespace Func

/-- Some splits in a row, each of which is allowed. -/
inductive Cuts (f : Func) : Func → Prop
  | refl : Cuts f f
  | step {g : Func} {b : BlockId} {index : Nat} {blk : Block} (label : String) :
      Cuts f g → g.Cuttable b index blk → Cuts f (g.cut b index label)

namespace Cuts

variable {f g g' : Func}

theorem trans (h : f.Cuts g) (h' : g.Cuts g') : f.Cuts g' := by
  induction h' with
  | refl => exact h
  | step label _ hcut ih => exact ih.step label hcut

theorem shaped (h : f.Cuts g) (hf : f.Shaped) : g.Shaped := by
  induction h with
  | refl => exact hf
  | step label _ hcut _ => exact hcut.shaped_cut

theorem numbered (h : f.Cuts g) (hf : f.Numbered) : g.Numbered := by
  induction h with
  | refl => exact hf
  | step label _ hcut _ => exact hcut.numbered_cut

theorem wellFormed (h : f.Cuts g) (hf : f.WellFormed) : g.WellFormed := by
  induction h with
  | refl => exact hf
  | step label _ hcut ih => exact hcut.wellFormed_cut ih

/-- Splits change neither the instructions of a function nor the values it knows. -/
theorem same (h : f.Cuts g) : g.instrs = f.instrs ∧ g.paramValues = f.paramValues ∧
    g.name = f.name ∧ g.next.value = f.next.value ∧ g.next.instr = f.next.instr := by
  induction h with
  | refl => exact ⟨rfl, rfl, rfl, rfl, rfl⟩
  | step label _ hcut ih => exact ⟨Splittable.instrs_cut.trans ih.1, ih.2⟩

/-- Splits do not change how a function is called. -/
theorem convention (h : f.Cuts g) : g.convention = f.convention := by
  induction h with
  | refl => rfl
  | step label _ _ ih => exact ih

/-- The blocks from before are there after the splits. -/
theorem blockIds_subset (h : f.Cuts g) : f.blockIds ⊆ g.blockIds ∧ f.next.block ≤ g.next.block := by
  induction h with
  | refl => exact ⟨List.Subset.refl _, Nat.le_refl _⟩
  | step label _ hcut ih =>
    refine ⟨fun b hb => ?_, Nat.le_succ_of_le ih.2⟩
    exact hcut.blockIds_perm.mem_iff.2 (List.mem_cons_of_mem _ (ih.1 hb))

theorem events_down (h : f.Cuts g) {w : List BlockId} (hw : g.graph.IsWalk w) :
    ∃ w₀, f.graph.IsWalk w₀ ∧ g.events w <+: f.events w₀ := by
  induction h generalizing w with
  | refl => exact ⟨w, hw, List.prefix_rfl⟩
  | step label _ hcut ih =>
    obtain ⟨w₁, hw₁, hprefix₁⟩ := hcut.events_down hw
    obtain ⟨w₀, hw₀, hprefix₀⟩ := ih hw₁
    exact ⟨w₀, hw₀, hprefix₁.trans hprefix₀⟩

theorem events_up (h : f.Cuts g) {w : List BlockId} (hw : f.graph.IsWalk w) :
    ∃ w', g.graph.IsWalk w' ∧ g.events w' = f.events w := by
  induction h with
  | refl => exact ⟨w, hw, rfl⟩
  | step label _ hcut ih =>
    obtain ⟨w₁, hw₁, hevents₁⟩ := ih
    obtain ⟨w₁, x, rfl⟩ := hw₁.exists_snoc
    obtain ⟨w', hw', -, hevents⟩ := hcut.walk_up label w₁ x hw₁
    exact ⟨_, hw', hevents.trans hevents₁⟩

end Cuts

end Func

end BarrierLowering
