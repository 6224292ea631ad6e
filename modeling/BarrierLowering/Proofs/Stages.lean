import BarrierLowering.Stage
import BarrierLowering.Proofs.WellFormed

/-!
# Stages along walks

The search that gives the blocks their stages comes to each block along a walk, and the stage of
the block is the stage at which that walk comes to it. So a value that is read outside the odd
stage of its definition is read across a barrier on a walk: there the anchor comes before the
definition, and a barrier between the definition and the read.

## Main definitions

* `Func.Opens` — the entry runs the anchor before any barrier.
* `Func.Traced` — a walk on which each block was found from the one before.
* `Func.Crossing` — a read across a barrier.

## Main results

* `Func.exists_traced` — the search comes to each block along such a walk.
* `Func.exists_crossing` — a value that crosses a barrier does so on a walk.
-/

namespace BarrierLowering

/-- What is found under a key is in the list with it. -/
theorem mem_of_lookup {α β : Type} [BEq α] [LawfulBEq α] {l : List (α × β)} {a : α} {b : β}
    (h : l.lookup a = some b) : (a, b) ∈ l := by
  obtain ⟨l₁, l₂, rfl, -⟩ := List.lookup_eq_some_iff.1 h
  exact List.mem_append_right _ List.mem_cons_self

/-! ### Stages of instructions -/

namespace BarrierOrder

variable {o : BarrierOrder} {s n : Nat} {i : Instr} {is js : List Instr}

/-- Only the barriers are numbered. -/
theorem number?_eq_none_iff {i : InstrId} : o.number? i = none ↔ i ∉ o.barriers := by
  rw [number?, List.lookup_eq_none_iff]
  constructor
  · intro h hi
    obtain ⟨k, hk⟩ := List.mem_iff_getElem?.1 hi
    have hmem : (i, 1 + k) ∈ (o.barriers.zipIdx 1).reverse := by
      rw [List.mem_reverse]
      exact List.mk_add_mem_zipIdx_iff_getElem?.2 hk
    simpa using h _ hmem
  · rintro h ⟨j, k⟩ hmem
    rw [List.mem_reverse] at hmem
    have hj : j ∈ o.barriers := List.fst_mem_of_mem_zipIdx hmem
    simpa using fun heq : i = j => h (heq ▸ hj)

theorem stageOf_of_not_barrier (h : i.id ∉ o.barriers) : o.stageOf s i = s := by
  rw [stageOf, number?_eq_none_iff.2 h]

/-- At a barrier the stage is even. -/
theorem not_barrier_of_stageOf (h : o.stageOf s i % 2 = 1) : i.id ∉ o.barriers := by
  rw [← number?_eq_none_iff]
  cases hk : o.number? i.id with
  | none => rfl
  | some k =>
    rw [stageOf, hk] at h
    simp only [Nat.mul_mod_right] at h
    cases h

@[simp] theorem endStage_nil (o : BarrierOrder) (s : Nat) : o.endStage s [] = s := rfl

@[simp] theorem endStage_cons : o.endStage s (i :: is) = o.endStage (o.stageAfter s i) is := rfl

@[simp] theorem endStage_append : o.endStage s (is ++ js) = o.endStage (o.endStage s is) js :=
  List.foldl_append

/-- Between marks the stage does not change. -/
theorem endStage_of_not_mark (h : ∀ i ∈ is, i.id ∉ o.barriers ∧ i.id ≠ o.anchor) :
    o.endStage s is = s := by
  induction is with
  | nil => rfl
  | cons i is ih =>
    obtain ⟨hbarrier, hanchor⟩ := h i List.mem_cons_self
    have hafter : o.stageAfter s i = s := by
      rw [stageAfter, number?_eq_none_iff.2 hbarrier]
      exact if_neg hanchor
    rw [endStage_cons, hafter, ih fun j hj => h j (List.mem_cons_of_mem _ hj)]

theorem stageAfter_pos (h : 0 < s ∨ i.id = o.anchor) : 0 < o.stageAfter s i := by
  unfold stageAfter
  split
  · exact Nat.succ_pos _
  · split
    · exact Nat.one_pos
    · next hne => exact h.resolve_right hne

/-- Stage zero ends at the anchor, for good. -/
theorem endStage_pos (h : 0 < s ∨ ∃ i ∈ is, i.id = o.anchor) : 0 < o.endStage s is := by
  induction is generalizing s with
  | nil => simpa using h
  | cons i is ih =>
    refine ih ?_
    rcases h with h | ⟨j, hj, hid⟩
    · exact Or.inl (stageAfter_pos (Or.inl h))
    · rcases List.mem_cons.1 hj with rfl | hj
      · exact Or.inl (stageAfter_pos (Or.inr hid))
      · exact Or.inr ⟨j, hj, hid⟩

/-- The stage of an instruction of a block is settled by what comes before it. -/
theorem mem_staged (h : (i, n) ∈ o.staged s is) :
    ∃ js ks, is = js ++ i :: ks ∧ n = o.stageOf (o.endStage s js) i := by
  induction is generalizing s with
  | nil => cases h
  | cons j is ih =>
    rcases List.mem_cons.1 h with heq | h
    · obtain ⟨rfl, rfl⟩ := Prod.mk.inj heq
      exact ⟨[], is, rfl, rfl⟩
    · obtain ⟨js, ks, rfl, rfl⟩ := ih h
      exact ⟨j :: js, ks, rfl, rfl⟩

variable {v : ValueId} {blk : Block}

/-- A block reads a value in an instruction or in its terminator. -/
theorem mem_uses (h : (v, n) ∈ o.uses s blk) :
    (∃ js i ks, blk.instrs = js ++ i :: ks ∧ i.isPhi = false ∧ v ∈ i.op.operands ∧
      n = o.stageOf (o.endStage s js) i) ∨
      v ∈ blk.term.operands ∧ n = o.endStage s blk.instrs := by
  rcases List.mem_append.1 h with h | h
  · obtain ⟨⟨i, k⟩, hi, huse⟩ := List.mem_flatMap.1 h
    obtain ⟨js, ks, hsplit, rfl⟩ := mem_staged hi
    dsimp only at huse
    cases hphi : i.isPhi with
    | true => simp [hphi] at huse
    | false =>
      rw [hphi] at huse
      obtain ⟨u, hu, heq⟩ := List.mem_map.1 huse
      cases heq
      exact Or.inl ⟨js, i, ks, hsplit, hphi, hu, rfl⟩
  · obtain ⟨u, hu, heq⟩ := List.mem_map.1 h
    cases heq
    exact Or.inr ⟨hu, rfl⟩

/-- The reads of the phi nodes of a block. -/
theorem mem_phiUses {a : BlockId} :
    (v, a) ∈ phiUses blk ↔ ∃ i ∈ blk.instrs, (a, v) ∈ i.incoming := by
  rw [phiUses, List.mem_flatMap]
  refine exists_congr fun i => and_congr_right fun _ => ?_
  unfold Instr.incoming
  cases i.op <;> simp

/-- A block defines a value in an instruction. -/
theorem mem_definitions (h : (v, n) ∈ o.definitions s blk) :
    ∃ js i ks, blk.instrs = js ++ i :: ks ∧ i.result = some v ∧
      n = o.stageOf (o.endStage s js) i := by
  obtain ⟨⟨i, k⟩, hi, heq⟩ := List.mem_filterMap.1 h
  obtain ⟨js, ks, hsplit, rfl⟩ := mem_staged hi
  obtain ⟨u, hu, heq⟩ := Option.map_eq_some_iff.1 heq
  cases heq
  exact ⟨js, i, ks, hsplit, hu, rfl⟩

end BarrierOrder

namespace Func

variable {f : Func} {o : BarrierOrder} {a b c x e : BlockId} {blk : Block} {w : List BlockId}
  {v : ValueId} {i : Instr} {is : List Instr} {s t n : Nat}

/-! ### Traced walks -/

/-- The entry runs the anchor, and no barrier before it. -/
def Opens (f : Func) (o : BarrierOrder) : Prop :=
  ∃ e pre y post, f.entryId? = some e ∧ f.instrsOf e = pre ++ y :: post ∧ y.id = o.anchor ∧
    ∀ i ∈ pre ++ [y], i.id ∉ o.barriers

/-- A walk that comes to each of its blocks at the stage at which the block starts. -/
structure Traced (f : Func) (o : BarrierOrder) (w : List BlockId) : Prop where
  walk : f.graph.IsWalk w
  staged : ∀ w₁ b, w₁ ++ [b] <+: w → (b, o.endStage 0 (f.instrsOn w₁)) ∈ f.startStages o

theorem endStage_eq : f.endStage o b s = o.endStage s (f.instrsOf b) := by
  rw [endStage, instrsOf]
  cases f.block? b <;> rfl

/-- A block starts at one stage. -/
theorem startStages_unique (h : (b, s) ∈ f.startStages o) (h' : (b, t) ∈ f.startStages o) :
    s = t := by
  have hnd : (Graph.unlabel (f.startStages o)).Nodup := by
    apply Graph.nodup_spread
    cases f.entryId? <;> simp
  exact (Prod.mk.inj (List.inj_on_of_nodup_map hnd h h' rfl)).2

/-- The search comes to each block along a traced walk. -/
theorem exists_traced (h : (b, s) ∈ f.startStages o) :
    ∃ w, f.Traced o (w ++ [b]) ∧ s = o.endStage 0 (f.instrsOn w) := by
  refine Graph.spread_induction (motive := fun b s => ∃ w, f.Traced o (w ++ [b]) ∧
    s = o.endStage 0 (f.instrsOn w)) (f.endStage o) [] _ ?_ ?_ _ h
  · rintro x hx
    obtain ⟨e, he, rfl⟩ := List.mem_map.1 hx
    rw [Option.mem_toList] at he
    refine ⟨[], ⟨Graph.isWalk_singleton.2 he, fun w₁ b hpre => ?_⟩, rfl⟩
    obtain ⟨rfl, rfl⟩ : w₁ = [] ∧ b = e := by
      rcases List.prefix_concat_iff.1 hpre with heq | hnil
      · exact ⟨(List.append_inj' heq rfl).1, List.singleton_inj.1 (List.append_inj' heq rfl).2⟩
      · simp at hnil
    exact Graph.mem_spread_of_mem _ _ _ hx
  · rintro a s b - hb hab ⟨w, htraced, rfl⟩
    rw [endStage_eq] at hb ⊢
    have hstage : o.endStage (o.endStage 0 (f.instrsOn w)) (f.instrsOf a) =
        o.endStage 0 (f.instrsOn (w ++ [a])) := by
      rw [instrsOn_append, BarrierOrder.endStage_append, instrsOn_cons, instrsOn_nil,
        List.append_nil]
    rw [hstage] at hb ⊢
    refine ⟨w ++ [a], ⟨htraced.walk.snoc hab.1, fun w₁ c hpre => ?_⟩, rfl⟩
    rcases List.prefix_concat_iff.1 hpre with heq | hpre
    · obtain ⟨rfl, hc⟩ := List.append_inj' heq rfl
      rw [List.singleton_inj.1 hc]
      exact hb
    · exact htraced.staged w₁ c hpre

namespace Traced

/-- Where the entry runs the anchor, a traced walk comes to the entry once, and runs nothing but
unmarked code before the anchor. -/
theorem exists_opening (h : f.Traced o w) (hids : (f.instrs.map (·.id)).Nodup)
    (hopens : f.Opens o) :
    ∃ pre y rest, f.instrsOn w = pre ++ y :: rest ∧ y.id = o.anchor ∧
      (∀ i ∈ pre, i.id ∉ o.barriers ∧ i.id ≠ o.anchor) ∧ ∀ i ∈ rest, i.id ≠ o.anchor := by
  obtain ⟨e, pre, y, post, hentry, hsplit, hy, hquiet⟩ := hopens
  obtain ⟨e', he', hhead⟩ := h.walk.start
  obtain rfl : e = e' := Option.some.inj (hentry.symm.trans he')
  obtain ⟨w, rfl⟩ : ∃ w', w = e :: w' := by
    cases w with
    | nil => cases hhead
    | cons b w => exact ⟨w, by rw [List.head?_cons, Option.some_inj] at hhead; rw [hhead]⟩
  have hy' : y ∈ f.instrsOf e := hsplit ▸ List.mem_append_right _ List.mem_cons_self
  -- the stage is positive behind the entry, so control does not come back to it
  have honce : e ∉ w := by
    intro hmem
    obtain ⟨w₁, w₂, rfl⟩ := List.append_of_mem hmem
    have hback := h.staged (e :: w₁) e ⟨w₂, by simp⟩
    have hfront := h.staged [] e ⟨w₁ ++ e :: w₂, rfl⟩
    have hpos : 0 < o.endStage 0 (f.instrsOn (e :: w₁)) :=
      BarrierOrder.endStage_pos (Or.inr ⟨y, List.mem_append_left _ hy', hy⟩)
    have hzero : o.endStage 0 (f.instrsOn (e :: w₁)) = 0 := startStages_unique hback hfront
    omega
  have hnd : ((f.instrsOf e).map (·.id)).Nodup := by
    obtain ⟨blk, hblk⟩ := mem_blockIds_iff.1 (entryId?_mem hentry)
    rw [instrs, List.map_flatMap, List.nodup_flatMap] at hids
    rw [instrsOf_of_block? hblk]
    exact hids.1 blk (block?_mem hblk).1
  rw [hsplit, List.map_append, List.map_cons, List.nodup_append, List.nodup_cons, hy] at hnd
  obtain ⟨-, ⟨hpost, -⟩, hpre⟩ := hnd
  refine ⟨pre, y, post ++ f.instrsOn w, by rw [instrsOn_cons, hsplit]; simp, hy, ?_, ?_⟩
  · intro i hi
    refine ⟨hquiet i (List.mem_append_left _ hi), fun hid => ?_⟩
    exact hpre _ (List.mem_map_of_mem hi) _ List.mem_cons_self hid
  · intro i hi hid
    rcases List.mem_append.1 hi with hi | hi
    · exact hpost (hid ▸ List.mem_map_of_mem hi)
    · obtain ⟨b, hb, hi⟩ := List.mem_flatMap.1 hi
      obtain ⟨rfl, -⟩ := eq_of_mem_instrsOf hids hi hy' (hid.trans hy.symm)
      exact honce hb

/-- An instruction on a traced walk is reached at the stage at which its block reaches it. -/
theorem stage_of_split (h : f.Traced o (w ++ [x])) (his : is <+: f.instrsOf x)
    {as bs : List Instr} (hsplit : f.instrsOn w ++ is = as ++ i :: bs) :
    ∃ c s ks, (c, s) ∈ f.startStages o ∧ ks ++ [i] <+: f.instrsOf c ∧
      o.endStage 0 as = o.endStage s ks := by
  rcases append_eq_append_cons hsplit with ⟨ks, rfl, rfl⟩ | ⟨mid, hrun, -⟩
  · refine ⟨x, _, ks, h.staged w x List.prefix_rfl, ?_, BarrierOrder.endStage_append⟩
    exact List.IsPrefix.trans ⟨bs, by simp⟩ his
  · obtain ⟨w₁, c, w₂, ks, ls, rfl, hks, rfl, -⟩ := flatMap_eq_append_cons hrun
    exact ⟨c, _, ks, h.staged w₁ c ⟨w₂ ++ [x], by simp⟩, ⟨ls, by simp [hks]⟩,
      BarrierOrder.endStage_append⟩

/-- An instruction that a traced walk has run is reached at the stage at which its block reaches
it. -/
theorem exists_stage (h : f.Traced o (w ++ [x])) (his : is <+: f.instrsOf x)
    (hi : i ∈ f.instrsOn w ++ is) :
    ∃ as bs c s ks, f.instrsOn w ++ is = as ++ i :: bs ∧ (c, s) ∈ f.startStages o ∧
      ks ++ [i] <+: f.instrsOf c ∧ o.endStage 0 as = o.endStage s ks := by
  obtain ⟨as, bs, hsplit⟩ := List.append_of_mem hi
  obtain ⟨c, s, ks, hstage⟩ := h.stage_of_split his hsplit
  exact ⟨as, bs, c, s, ks, hsplit, hstage⟩

end Traced

/-! ### Reads across a barrier -/

/-- The values that are read are those of the uses of reachable blocks, and those of the phi nodes
behind them. -/
theorem mem_stagedUses (h : (v, n) ∈ f.stagedUses o) : ∃ x s, (x, s) ∈ f.startStages o ∧
    ((∃ blk, f.block? x = some blk ∧ (v, n) ∈ o.uses s blk) ∨
      ∃ y blk, f.block? y = some blk ∧ (v, x) ∈ BarrierOrder.phiUses blk ∧
        n = f.endStage o x s) := by
  rcases List.mem_append.1 h with h | h
  · obtain ⟨⟨blk, s⟩, hblk, huse⟩ := List.mem_flatMap.1 h
    obtain ⟨⟨x, s⟩, hstart, heq⟩ := List.mem_filterMap.1 hblk
    obtain ⟨blk, hx, heq⟩ := Option.map_eq_some_iff.1 heq
    cases heq
    exact ⟨x, s, hstart, Or.inl ⟨blk, hx, huse⟩⟩
  · obtain ⟨⟨u, x⟩, hphi, heq⟩ := List.mem_filterMap.1 h
    obtain ⟨s, hlookup, heq⟩ := Option.map_eq_some_iff.1 heq
    cases heq
    obtain ⟨⟨blk, t⟩, hblk, hphi⟩ := List.mem_flatMap.1 hphi
    obtain ⟨⟨y, t⟩, -, heq⟩ := List.mem_filterMap.1 hblk
    obtain ⟨blk, hy, heq⟩ := Option.map_eq_some_iff.1 heq
    cases heq
    exact ⟨x, s, mem_of_lookup hlookup, Or.inr ⟨y, blk, hy, hphi, rfl⟩⟩

/-- The values that are defined are those of the reachable blocks. -/
theorem mem_stagedDefinitions (h : (v, n) ∈ f.stagedDefinitions o) :
    ∃ b s blk, (b, s) ∈ f.startStages o ∧ f.block? b = some blk ∧ (v, n) ∈ o.definitions s blk := by
  obtain ⟨⟨b, s⟩, hstart, hdef⟩ := List.mem_flatMap.1 h
  dsimp only at hdef
  split at hdef
  · next blk hb => exact ⟨b, s, blk, hstart, hb, hdef⟩
  · cases hdef

/-- A value with a stage is read at the end of a traced walk: its definition was reached before,
and if the reader is no barrier, what was reached before settles the stage. -/
theorem exists_traced_use (hf : f.WellFormed) (h : (v, n) ∈ f.stagedUses o) :
    ∃ w x is js, f.Traced o (w ++ [x]) ∧ is ++ js <+: f.instrsOf x ∧
      f.ReadAfter v (f.instrsOn w ++ (is ++ js)) ∧
      f.Supplied (f.arrival w x ++ is.flatMap Instr.events) v ∧
      ((∀ i ∈ js, i.id ∉ o.barriers) → n = o.endStage 0 (f.instrsOn w ++ is)) := by
  have hlocal := (sound_walks_iff hf.targets_exist).1 hf.sound
  have hall : ∀ x, f.instrsOf x ++ [] <+: f.instrsOf x := fun x =>
    ⟨[], by rw [List.append_nil, List.append_nil]⟩
  obtain ⟨x, s, hstart, ⟨blk, hx, huse⟩ | ⟨y, blk, hy, hphi, rfl⟩⟩ := mem_stagedUses h
  · obtain ⟨w, htraced, rfl⟩ := exists_traced hstart
    obtain ⟨hinstrs, hterm, -⟩ := hlocal w x blk htraced.walk hx
    rcases BarrierOrder.mem_uses huse with ⟨is, i, ks, hsplit, hphi, hv, rfl⟩ | ⟨hv, rfl⟩
    · have hread := readAfter_of_instr htraced.walk hx hsplit hphi hv
      refine ⟨w, x, is, [i], htraced, ?_, hread, hinstrs is i ks hsplit hphi v hv, fun hquiet => ?_⟩
      · exact ⟨ks, by rw [instrsOf_of_block? hx, hsplit, List.append_assoc, List.singleton_append]⟩
      · rw [BarrierOrder.stageOf_of_not_barrier (hquiet i List.mem_cons_self),
          BarrierOrder.endStage_append]
    · have hread := readAfter_of_term htraced.walk hx hv
      rw [instrsOn_append, instrsOn_cons, instrsOn_nil, List.append_nil] at hread
      rw [← instrsOf_of_block? hx] at hterm ⊢
      refine ⟨w, x, f.instrsOf x, [], htraced, hall x, ?_, hterm v hv, fun _ => ?_⟩
      · rwa [List.append_nil]
      · rw [BarrierOrder.endStage_append]
  · -- a phi node reads the value on the edge from `x`
    obtain ⟨i, hi, hin⟩ := BarrierOrder.mem_phiUses.1 hphi
    have hedge : f.graph.Edge x y := by
      obtain ⟨hmem, rfl⟩ := block?_mem hy
      rw [← mem_predecessors_iff_edge hf.blocks_nodup,
        ← (hf.phis_match blk hmem i hi (Instr.isPhi_of_incoming hin)).mem_iff]
      exact List.mem_map_of_mem hin
    obtain ⟨w, htraced, rfl⟩ := exists_traced hstart
    obtain ⟨xblk, hx, -⟩ := edge_iff.1 hedge
    obtain ⟨-, -, hphis⟩ := hlocal w x xblk htraced.walk hx
    have hread := readAfter_of_edge htraced.walk hedge
      ((edgeEvents_of_block? hy).symm ▸ read_mem_phiReads.2 ⟨i, hi, hin⟩)
    rw [instrsOn_append, instrsOn_cons, instrsOn_nil, List.append_nil] at hread
    refine ⟨w, x, f.instrsOf x, [], htraced, hall x, ?_, ?_, fun _ => ?_⟩
    · rwa [List.append_nil]
    · rw [instrsOf_of_block? hx]
      exact hphis y blk hedge hy i hi v hin
    · rw [endStage_eq, BarrierOrder.endStage_append]

/-- A value is defined in one place. -/
theorem place_unique {d : Instr} {c : BlockId} {js ls : List Instr} (hnd : f.results.Nodup)
    (hb : js ++ [i] <+: f.instrsOf b) (hc : ls ++ [d] <+: f.instrsOf c) (hi : i.result = some v)
    (hd : d.result = some v) : b = c ∧ js = ls ∧ i = d := by
  have hblock : ∀ {b js} {i : Instr}, js ++ [i] <+: f.instrsOf b →
      ∃ blk ks, f.block? b = some blk ∧ blk.instrs = js ++ i :: ks := by
    rintro b js i ⟨ks, hks⟩
    cases hblk : f.block? b with
    | none => simp [instrsOf, hblk] at hks
    | some blk =>
      rw [instrsOf_of_block? hblk, List.append_assoc, List.singleton_append] at hks
      exact ⟨blk, ks, rfl, hks.symm⟩
  obtain ⟨blk, ks, hblk, hks⟩ := hblock hb
  obtain ⟨cblk, ms, hcblk, hms⟩ := hblock hc
  obtain ⟨rfl, hplace⟩ := definition_unique hnd (block?_mem hblk).1 (block?_mem hcblk).1
    hks hms hi hd
  exact ⟨(block?_mem hblk).2.symm.trans (block?_mem hcblk).2, hplace⟩

/-- A value that is written on a traced walk is written at the stage of its definition. -/
theorem Traced.exists_definition (h : f.Traced o (w ++ [x])) (his : is <+: f.instrsOf x)
    (hnd : f.results.Nodup) (hb : (b, s) ∈ f.startStages o) (hblk : f.block? b = some blk)
    {js ks : List Instr} (hsplit : blk.instrs = js ++ i :: ks) (hv : i.result = some v)
    (hwrite : .write v ∈ f.arrival w x ++ is.flatMap Instr.events) :
    ∃ as bs, f.instrsOn w ++ is = as ++ i :: bs ∧ o.endStage 0 as = o.endStage s js := by
  obtain ⟨d, hd, hres⟩ : ∃ d ∈ f.instrsOn w ++ is, d.result = some v := by
    rw [List.mem_append, write_mem_arrival, write_mem_events, write_mem_flatMap] at hwrite
    rcases hwrite with ⟨d, hd, hres⟩ | ⟨d, hd, hres⟩
    · exact ⟨d, List.mem_append_left _ hd, hres⟩
    · exact ⟨d, List.mem_append_right _ hd, hres⟩
  obtain ⟨as, bs, c, t, ls, hwalk, hc, hls, hstage⟩ := h.exists_stage his hd
  rw [← instrsOf_of_block? hblk] at hsplit
  obtain ⟨rfl, rfl, rfl⟩ := place_unique hnd ⟨ks, by rw [hsplit, List.append_assoc]; rfl⟩
    hls hv hres
  rw [startStages_unique hc hb] at hstage
  exact ⟨as, bs, hwalk, hstage⟩

/-- A value that crosses a barrier is defined at an odd stage, which this barrier closes, and read
at another one. -/
theorem crossing?_eq_some {barrier : InstrId} (h : f.crossing? o = some (v, barrier)) :
    ∃ defined used, (v, defined) ∈ f.stagedDefinitions o ∧ (v, used) ∈ f.stagedUses o ∧
      defined % 2 = 1 ∧ defined ≠ used ∧ o.barriers[defined / 2]? = some barrier := by
  obtain ⟨⟨u, used⟩, huse, hcross⟩ := List.exists_of_findSome?_eq_some h
  dsimp only at hcross
  split at hcross
  · next defined hlookup =>
    split at hcross
    · next hstages =>
      obtain ⟨_, hbarrier, heq⟩ := Option.map_eq_some_iff.1 hcross
      cases heq
      exact ⟨defined, used, List.mem_reverse.1 (mem_of_lookup hlookup), huse, hstages.1, hstages.2,
        hbarrier⟩
    · cases hcross
  · cases hcross

/-- Where the stage is not zero, the anchor has been reached, and is not reached again. -/
theorem Traced.exists_anchor (h : f.Traced o (w ++ [x])) (hids : (f.instrs.map (·.id)).Nodup)
    (hopens : f.Opens o) {as bs rs : List Instr} {d : Instr} (hinitial : is ++ rs <+: f.instrsOf x)
    (hwalk : f.instrsOn w ++ is = as ++ d :: bs) (hstage : o.endStage 0 as ≠ 0) :
    (∃ y ∈ as, y.id = o.anchor) ∧ ∀ i ∈ d :: (bs ++ rs), i.id ≠ o.anchor := by
  obtain ⟨pre, y, rest, hopening, hy, hpre, hrest⟩ := h.exists_opening hids hopens
  obtain ⟨ms, hms⟩ := hinitial
  have hsame : as ++ d :: (bs ++ rs ++ ms) = pre ++ y :: rest := by
    rw [← hopening, instrsOn_append, instrsOn_cons, instrsOn_nil, List.append_nil, ← hms]
    rw [← List.append_assoc, ← List.append_assoc, hwalk]
    simp
  rcases append_eq_append_cons hsame with ⟨mid, rfl, -⟩ | ⟨mid, rfl, rfl⟩
  · exact absurd (BarrierOrder.endStage_of_not_mark fun i hi =>
      hpre i (List.mem_append_left _ hi)) hstage
  · refine ⟨⟨y, by simp, hy⟩, fun i hi => hrest i (List.mem_append_right _ ?_)⟩
    rw [← List.cons_append]
    exact List.mem_append_left _ hi

/-- A read across a barrier: on a traced walk the anchor, a definition of the value and a barrier
are reached in this order, with no mark between the last two, before the value is read. -/
structure Crossing (f : Func) (o : BarrierOrder) (v : ValueId) where
  walk : List BlockId
  last : BlockId
  /-- What has been reached in the last block. -/
  front : List Instr
  before : List Instr
  definition : Instr
  between : List Instr
  barrier : Instr
  after : List Instr
  traced : f.Traced o (walk ++ [last])
  initial : front <+: f.instrsOf last
  reached : f.instrsOn walk ++ front = before ++ definition :: (between ++ barrier :: after)
  reads : f.ReadAfter v (f.instrsOn walk ++ front)
  defines : definition.result = some v
  anchor_mem : ∃ y ∈ before, y.id = o.anchor
  barrier_mem : barrier.id ∈ o.barriers
  quiet : ∀ i ∈ definition :: between, i.id ∉ o.barriers
  once : ∀ i ∈ definition :: (between ++ barrier :: after), i.id ≠ o.anchor

/-- A value that is read outside the odd stage of its definition is read across a barrier. -/
theorem exists_crossing (hf : f.WellFormed) (hids : (f.instrs.map (·.id)).Nodup)
    (hopens : f.Opens o) {barrier : InstrId} (h : f.crossing? o = some (v, barrier)) :
    ∃ c : f.Crossing o v, o.barriers[o.endStage 0 c.before / 2]? = some barrier := by
  obtain ⟨defined, used, hdef, huse, hodd, hne, hcloses⟩ := crossing?_eq_some h
  obtain ⟨b, s, blk, hb, hblk, hdef⟩ := mem_stagedDefinitions hdef
  obtain ⟨js, d, ks, hsplit, hd, rfl⟩ := BarrierOrder.mem_definitions hdef
  have hbarrier := BarrierOrder.not_barrier_of_stageOf hodd
  rw [BarrierOrder.stageOf_of_not_barrier hbarrier] at hodd hne hcloses
  -- the read, on a traced walk that comes to the definition first
  obtain ⟨w, x, is, rs, htraced, hinitial, hread, hsupplied, hused⟩ := exists_traced_use hf huse
  have hparam : v ∉ f.paramValues := hf.results_fresh v
    (mem_results_iff.2 ⟨blk, (block?_mem hblk).1, d, by simp [hsplit], hd⟩)
  obtain ⟨as, bs, hwalk, hstage⟩ := htraced.exists_definition
    ((List.prefix_append is rs).trans hinitial) hf.results_nodup hb hblk hsplit hd
    (hsupplied.resolve_left hparam)
  have hpos : o.endStage 0 as ≠ 0 := fun hzero => by
    rw [← hstage, hzero] at hodd
    cases hodd
  obtain ⟨hbefore, hanchor⟩ := htraced.exists_anchor hids hopens hinitial hwalk hpos
  -- a barrier comes behind it, because the stage of the read is another one
  cases hfind : (bs ++ rs).find? fun i => decide (i.id ∈ o.barriers) with
  | none =>
    rw [List.find?_eq_none] at hfind
    have hquiet : ∀ i ∈ d :: bs, i.id ∉ o.barriers ∧ i.id ≠ o.anchor := by
      intro i hi
      refine ⟨?_, hanchor i (List.mem_append_left rs hi)⟩
      rcases List.mem_cons.1 hi with rfl | hi
      · exact hbarrier
      · simpa using hfind i (List.mem_append_left _ hi)
    have hsame := hused fun i hi => by simpa using hfind i (List.mem_append_right _ hi)
    rw [hwalk, BarrierOrder.endStage_append, BarrierOrder.endStage_of_not_mark hquiet, hstage]
      at hsame
    exact absurd hsame.symm hne
  | some z =>
    obtain ⟨hz, bs', cs, hsplit', hquiet⟩ := List.find?_eq_some_iff_append.1 hfind
    rw [hsplit'] at hanchor
    rw [← hstage] at hcloses
    refine ⟨⟨w, x, is ++ rs, as, d, bs', z, cs, htraced, hinitial, ?_, hread, hd, hbefore,
      by simpa using hz, ?_, hanchor⟩, hcloses⟩
    · rw [← List.append_assoc, hwalk, List.append_assoc, List.cons_append, hsplit']
    · intro i hi
      rcases List.mem_cons.1 hi with rfl | hi
      · exact hbarrier
      · simpa using hquiet i hi

/-- On some walk the anchor, the definition of such a value and a barrier have been reached in this
order, with no mark between the last two, when the value is read. -/
theorem exists_readAfter_of_crossing? (hf : f.WellFormed) (hids : (f.instrs.map (·.id)).Nodup)
    (hopens : f.Opens o) {barrier : InstrId} (h : f.crossing? o = some (v, barrier)) :
    ∃ as d bs z cs, f.ReadAfter v (as ++ d :: (bs ++ z :: cs)) ∧ d.result = some v ∧
      (∃ y ∈ as, y.id = o.anchor) ∧ z.id ∈ o.barriers ∧
      ∀ i ∈ d :: bs, i.id ∉ o.barriers ∧ i.id ≠ o.anchor := by
  obtain ⟨c, -⟩ := exists_crossing hf hids hopens h
  refine ⟨c.before, c.definition, c.between, c.barrier, c.after, c.reached ▸ c.reads, c.defines,
    c.anchor_mem, c.barrier_mem, fun i hi => ⟨c.quiet i hi, c.once i ?_⟩⟩
  rw [← List.cons_append]
  exact List.mem_append_left _ hi

end Func

end BarrierLowering
