import BarrierLowering.Proofs.Extends

/-!
# Functions with their numbers in order

New identifiers are taken from counters, so that they are distinct from those in use as long as all
of these are below the counters. Every edit of the lowering keeps it so.

## Main definitions

* `Minted` — distinct members with numbers below a counter.
* `Func.Orderly` — the identifiers and the results of a function are minted from its counters.

## Main results

* `Func.Orderly.cut`, `Func.Orderly.value`, `Func.Orderly.effect`, `Func.Orderly.mapBlock`,
  `Func.Orderly.without` — the edits keep the numbers in order.
* `Func.Orderly.exists_home` — at most one block defines a value.
-/

namespace BarrierLowering

/-! ### Counters -/

/-- Distinct members with numbers below a counter. -/
structure Minted {α : Type} (index : α → Nat) (l : List α) (n : Nat) : Prop where
  nodup : l.Nodup
  lt : ∀ a ∈ l, index a < n

namespace Minted

variable {α : Type} {index : α → Nat} {l l' : List α} {a : α} {n : Nat} (h : Minted index l n)

include h

theorem sublist (hl : l'.Sublist l) : Minted index l' n :=
  ⟨h.nodup.sublist hl, fun a ha => h.lt a (hl.subset ha)⟩

theorem perm (hl : l'.Perm l) : Minted index l' n :=
  ⟨hl.nodup_iff.2 h.nodup, fun a ha => h.lt a (hl.mem_iff.1 ha)⟩

/-- The number that the counter gives is not in use. -/
theorem not_mem (ha : index a = n) : a ∉ l := fun hmem => absurd (h.lt a hmem) (by omega)

/-- One more member takes its number from the counter. -/
theorem cons (hl : l'.Perm (a :: l)) (ha : index a = n) : Minted index l' (n + 1) := by
  refine ⟨hl.nodup_iff.2 (List.nodup_cons.2 ⟨h.not_mem ha, h.nodup⟩), fun x hx => ?_⟩
  rcases List.mem_cons.1 (hl.mem_iff.1 hx) with rfl | hx
  · omega
  · exact Nat.lt_succ_of_lt (h.lt x hx)

end Minted

theorem map_mapFirst {α β : Type} {p : α → Bool} {change : α → α} {φ : α → β} {l : List α}
    (h : ∀ a, φ (change a) = φ a) : (mapFirst p change l).map φ = l.map φ := by
  induction l with
  | nil => rfl
  | cons a l ih =>
    rw [mapFirst]
    split
    · rw [List.map_cons, List.map_cons, h]
    · rw [List.map_cons, List.map_cons, ih]

/-! ### Functions -/

namespace Func

variable {f : Func} {b : BlockId} {i : Instr} {next : Counters}

/-- The blocks, the instructions and their results have distinct numbers below the counters, and so
have the parameters, which need not be distinct. -/
structure Orderly (f : Func) : Prop where
  blocks : Minted BlockId.index f.blockIds f.next.block
  params : ∀ v ∈ f.paramValues, v.index < f.next.value
  results : Minted ValueId.index f.results f.next.value
  instrs : Minted InstrId.index (f.instrs.map (·.id)) f.next.instr

/-- An instruction more in a block is one more in the function. -/
theorem instrs_widen_perm (hids : f.blockIds.Nodup) (hb : b ∈ f.blockIds) :
    (f.widen b [i] next).instrs.Perm (i :: f.instrs) := by
  have hone : (f.blocks.flatMap fun blk => if blk.id = b then [i] else []) = [i] :=
    flatMap_insert_eq_singleton i hids hb
  rw [widen, instrs_expand]
  simp only [List.flatMap_singleton]
  refine (List.flatMap_append_perm _ _ _).symm.trans ?_
  rw [hone]
  exact List.perm_append_singleton i f.instrs

theorem Shaped.orderly (hs : f.Shaped) (hn : f.Numbered) : f.Orderly where
  blocks := ⟨hs.blocks_nodup, hn.blocks_lt⟩
  params := hn.params_lt
  results := ⟨hs.results_nodup, hn.results_lt⟩
  instrs := ⟨hn.instrs_nodup, List.forall_mem_map.2 hn.instrs_lt⟩

namespace Orderly

variable (h : f.Orderly)

include h

theorem numbered : f.Numbered :=
  ⟨h.blocks.lt, h.params, h.results.lt, List.forall_mem_map.1 h.instrs.lt, h.instrs.nodup⟩

/-- At most one block defines a value. -/
theorem exists_home (v : ValueId) : ∃ b, ∀ x ∈ f.blocks,
    (x.instrs.any fun i => i.result = some v) = decide (x.id = b) := by
  by_cases hv : v ∈ f.results
  · obtain ⟨blk, hblk, i, hi, hres⟩ := mem_results_iff.1 hv
    obtain ⟨is, is', his⟩ := List.append_of_mem hi
    refine ⟨blk.id, fun x hx => ?_⟩
    rw [← Bool.coe_iff_coe, List.any_eq_true, decide_eq_true_iff]
    constructor
    · rintro ⟨j, hj, hjv⟩
      obtain ⟨js, js', hjs⟩ := List.append_of_mem hj
      rw [(definition_unique h.results.nodup hblk hx his hjs hres (of_decide_eq_true hjv)).1]
    · intro hid
      rw [List.inj_on_of_nodup_map h.blocks.nodup hx hblk hid]
      exact ⟨i, hi, decide_eq_true hres⟩
  · -- a value that nothing defines is defined in a block that does not exist
    refine ⟨f.fresh, fun x hx => ?_⟩
    have hfresh : f.fresh ∉ f.blockIds := h.blocks.not_mem rfl
    have hne : x.id ≠ f.fresh := fun hid => hfresh (hid ▸ List.mem_map_of_mem hx)
    rw [decide_eq_false hne, List.any_eq_false]
    exact fun i hi hiv => hv (mem_results_iff.2 ⟨x, hx, i, hi, of_decide_eq_true hiv⟩)

/-! ### Edits -/

/-- A split takes one number for a block. -/
theorem cut {index : Nat} {label : String} (hb : b ∈ f.blockIds) :
    (f.cut b index label).Orderly := by
  have hinstrs : (f.cut b index label).instrs = f.instrs := Splittable.instrs_cut
  refine ⟨h.blocks.cons (blockIds_cut_perm h.blocks.nodup hb) rfl, h.params, ?_, ?_⟩
  · rw [Func.results, hinstrs]
    exact h.results
  · rw [hinstrs]
    exact h.instrs

/-- An operation with a result takes one number for the instruction, and one for the value. -/
theorem value (hb : b ∈ f.blockIds) (op : Op) (ty : Ty) :
    (f.widen b [f.next.emit op ty] f.next.step).Orderly := by
  have hperm : (f.widen b [f.next.emit op ty] f.next.step).instrs.Perm
      (f.next.emit op ty :: f.instrs) := instrs_widen_perm h.blocks.nodup hb
  refine ⟨?_, fun v hv => Nat.lt_succ_of_lt (h.params v hv), h.results.cons (hperm.filterMap _) rfl,
    h.instrs.cons (hperm.map _) rfl⟩
  rw [blockIds_widen]
  exact h.blocks

/-- An operation without a result takes one number for the instruction. -/
theorem effect (hb : b ∈ f.blockIds) (op : Op) (ty : Ty) :
    (f.widen b [⟨⟨f.next.instr⟩, none, op, ty⟩]
      { f.next with instr := f.next.instr + 1 }).Orderly := by
  have hperm : (f.widen b [⟨⟨f.next.instr⟩, none, op, ty⟩]
      { f.next with instr := f.next.instr + 1 }).instrs.Perm (_ :: f.instrs) :=
    instrs_widen_perm h.blocks.nodup hb
  refine ⟨?_, h.params, h.results.perm (hperm.filterMap _), h.instrs.cons (hperm.map _) rfl⟩
  rw [blockIds_widen]
  exact h.blocks

/-- A change of a block that keeps the numbers in it. -/
theorem mapBlock {change : Block → Block} (hid : ∀ blk, (change blk).id = blk.id)
    (hnumbers : ∀ blk, (change blk).instrs.map (fun i => (i.id, i.result)) =
      blk.instrs.map fun i => (i.id, i.result)) : (f.mapBlock b change).Orderly := by
  have hids : (f.mapBlock b change).blockIds = f.blockIds := map_mapFirst hid
  have hall : ((f.mapBlock b change).instrs.map fun i => (i.id, i.result)) =
      f.instrs.map fun i => (i.id, i.result) := by
    rw [Func.instrs, Func.instrs, List.map_flatMap, List.map_flatMap, List.flatMap_def,
      List.flatMap_def]
    exact congrArg List.flatten (map_mapFirst hnumbers)
  have hinstrs : (f.mapBlock b change).instrs.map (·.id) = f.instrs.map (·.id) := by
    simpa [Function.comp_def] using congrArg (List.map Prod.fst) hall
  have hresults : (f.mapBlock b change).results = f.results := by
    simpa [Func.results, List.filterMap_map, Function.comp_def]
      using congrArg (List.filterMap Prod.snd) hall
  refine ⟨?_, h.params, ?_, ?_⟩
  · rw [hids]
    exact h.blocks
  · rw [hresults]
    exact h.results
  · rw [hinstrs]
    exact h.instrs

theorem without (is : List InstrId) : (f.without is).Orderly := by
  have hsub : (f.without is).instrs.Sublist f.instrs := by
    rw [instrs_without]
    exact List.filter_sublist
  refine ⟨?_, h.params, h.results.sublist (hsub.filterMap _), h.instrs.sublist (hsub.map _)⟩
  rw [blockIds_without]
  exact h.blocks

end Orderly

end Func

end BarrierLowering
