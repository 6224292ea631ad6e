import BarrierLowering.Proofs.Looped

/-!
# Ways around a block

A block dominates another one unless there is a way around it. A loop lets control pass its
region by: in a function with loops there is a way around a block if there is one in the
function without them that may go from the front of a region to its barrier at once.

## Main definitions

* `Func.Evades` — a block can be reached without a visit to another one before, and regions may
  be passed by.

## Main results

* `Func.evades_nil_iff` — the ways around a block are the walks that do not visit it before.
* `Func.Evades.to_dominator` — a way around one block passes the dominators of another one.
* `Func.Loopable.evades_looped_iff` — the ways around a block in a function with loops.
-/

namespace BarrierLowering.Func

/-- There is a way from the entry to a block that does not visit `c` before. It may pass regions
by. -/
inductive Evades (f : Func) (rs : List Region) (c : BlockId) : BlockId → Prop
  | entry {e : BlockId} : f.entryId? = some e → Evades f rs c e
  | edge {u v : BlockId} : Evades f rs c u → u ≠ c → f.graph.Edge u v → Evades f rs c v
  | skip {r : Region} : r ∈ rs → Evades f rs c r.pred → r.pred ≠ c → Evades f rs c r.succ

variable {f : Func} {guard : TurnGuard} {plan : Plan} {ws : List Wrap} {w : Wrap}
  {next : Counters} {rs : List Region} {c d p u v x : BlockId} {is : List BlockId}

/-- The ways around a block are the walks that do not visit it before. -/
theorem evades_nil_iff : f.Evades [] c x ↔ ∃ w, f.graph.IsWalk (w ++ [x]) ∧ c ∉ w := by
  constructor
  · intro h
    induction h with
    | entry he => exact ⟨[], Graph.isWalk_singleton.2 he, List.not_mem_nil⟩
    | @edge u v _ hne huv ih =>
      obtain ⟨w, hw, hc⟩ := ih
      refine ⟨w ++ [u], hw.snoc huv, fun hmem => ?_⟩
      rcases List.mem_append.1 hmem with hmem | hmem
      · exact hc hmem
      · exact hne (List.mem_singleton.1 hmem).symm
    | skip hr => cases hr
  · rintro ⟨w, hw, hc⟩
    revert hc
    refine Graph.IsWalk.snocInduction (motive := fun w x => c ∉ w → f.Evades [] c x) ?_ ?_ w x hw
    · exact fun e he _ => .entry he
    · intro w u v _ huv ih hc
      rw [List.mem_append, not_or, List.mem_singleton] at hc
      exact .edge (ih hc.1) (Ne.symm hc.2) huv

theorem Evades.mono (h : f.Evades [] c x) : f.Evades rs c x := by
  induction h with
  | entry he => exact .entry he
  | edge _ hne huv ih => exact .edge ih hne huv
  | skip hr => cases hr

/-- A way around the entry goes nowhere. -/
theorem Evades.eq_of_entry (h : f.Evades rs c x) (hc : f.entryId? = some c) : x = c := by
  induction h with
  | entry he => exact Option.some.inj (he.symm.trans hc)
  | edge _ hne _ ih => exact absurd ih hne
  | skip _ _ hne ih => exact absurd ih hne

/-- A way that goes on. -/
theorem Evades.extend (h : f.Evades rs c x) (hchain : (x :: is ++ [v]).IsChain f.graph.Edge)
    (hc : c ∉ x :: is) : f.Evades rs c v := by
  induction is generalizing x with
  | nil =>
    rw [List.mem_singleton] at hc
    exact .edge h (Ne.symm hc) (List.isChain_pair.1 hchain)
  | cons y is ih =>
    rw [List.mem_cons, not_or] at hc
    have hchain' := List.isChain_cons_cons.1 hchain
    exact ih (.edge h (Ne.symm hc.1) hchain'.1) hchain'.2 hc.2

/-- A way around one block goes around another one or through it. -/
theorem Evades.through (h : f.Evades rs c x) (p : BlockId) :
    (f.Evades rs c p ∧ p ≠ c) ∨ f.Evades rs p x := by
  induction h with
  | entry he => exact Or.inr (.entry he)
  | @edge u v hu hne huv ih =>
    rcases ih with h | h
    · exact Or.inl h
    · by_cases hp : u = p
      · exact Or.inl ⟨hp ▸ hu, hp ▸ hne⟩
      · exact Or.inr (.edge h hp huv)
  | @skip r hr hu hne ih =>
    rcases ih with h | h
    · exact Or.inl h
    · by_cases hp : r.pred = p
      · exact Or.inl ⟨hp ▸ hu, hp ▸ hne⟩
      · exact Or.inr (.skip hr h hp)

theorem Evades.mem_blockIds (h : f.Evades rs c x) (hs : f.Shaped)
    (hrs : ∀ r ∈ rs, r.succ ∈ f.blockIds) : x ∈ f.blockIds := by
  cases h with
  | entry he => exact entryId?_mem he
  | edge _ _ huv => exact hs.mem_of_edge huv
  | skip hr => exact hrs _ hr

theorem Evades.mem_reachable (h : f.Evades [] c x) (hs : f.Shaped) : x ∈ f.graph.reachable := by
  obtain ⟨w, hw, -⟩ := evades_nil_iff.1 h
  exact mem_reachable_iff.2 ⟨⟨w, hw⟩, mem_blockIds_of_isWalk hs.targets_exist hw⟩

/-! ### Dominators -/

/-- The entry dominates every block. -/
theorem dominates_entry (he : f.entryId? = some c) : f.graph.Dominates c x := by
  intro w hw
  obtain ⟨e, he', hhead⟩ := hw.start
  obtain rfl : c = e := Option.some.inj (he.symm.trans he')
  exact List.mem_of_mem_head? hhead

/-- There is no way around a dominator, but to itself. -/
theorem Evades.eq_of_dominates (h : f.Evades [] c x) (hdom : f.graph.Dominates c x) : c = x := by
  obtain ⟨w, hw, hc⟩ := evades_nil_iff.1 h
  exact List.mem_singleton.1 ((List.mem_append.1 (hdom w hw)).resolve_left hc)

/-- A way around a block to another one passes the dominators of that one. -/
theorem Evades.to_dominator (h : f.Evades [] c x) (hdom : f.graph.Dominates d x) :
    f.Evades [] c d := by
  rcases h.through d with hd | hd
  · exact hd.1
  · exact hd.eq_of_dominates hdom ▸ h

/-- A block can be reached without a visit to it before. -/
theorem evades_self {w : List BlockId} (hw : f.graph.IsWalk (w ++ [d])) : f.Evades [] d d := by
  obtain ⟨w₁, w₂, hsplit, hd⟩ := List.eq_append_cons_of_mem
    (List.mem_append_right w (List.mem_singleton.2 rfl) : d ∈ w ++ [d])
  exact evades_nil_iff.2 ⟨w₁, (hsplit ▸ hw).stop, hd⟩

/-- A block can be reached around the blocks that it dominates. -/
theorem evades_of_dominates (hdom : f.graph.Dominates d c) {w : List BlockId}
    (hw : f.graph.IsWalk (w ++ [d])) : f.Evades [] c d :=
  ((evades_self hw).through c).resolve_left fun hc => hc.2 (hc.1.eq_of_dominates hdom).symm

/-! ### Ways in a function with loops -/

namespace Loopable

/-- The entry stays the entry if it is neither the start of a region nor the block of a barrier. -/
theorem entryId?_of_ne
    (hentry : ∀ e, f.entryId? = some e →
      (∀ w ∈ ws, w.region.start ≠ e) ∧ ∀ w ∈ ws, w.region.succ ≠ e) :
    (f.looped ws next).entryId? = f.entryId? := by
  rw [entryId?_looped]
  cases he : f.entryId? with
  | none => rfl
  | some e => rw [Option.map_some, detour_of_ne (hentry e he).1 (hentry e he).2]

/-- A way in the function with loops is one from before that may pass regions by. A way to a loop
is one to the block in front of its region, and goes on from there. -/
theorem evades_of_looped (h : f.Loopable guard plan ws next)
    (hentry : (f.looped ws next).entryId? = f.entryId?)
    (hexit : ∀ w ∈ ws, ¬ f.Evades (ws.map (·.region)) w.region.pred w.region.exit)
    (hx : (f.looped ws next).Evades [] c x) :
    (x ∈ f.blockIds → f.Evades (ws.map (·.region)) c x) ∧
      ∀ w ∈ ws, x = w.code.header ∨ x = w.code.tail →
        f.Evades (ws.map (·.region)) c w.region.pred ∧ w.region.pred ≠ c := by
  induction hx with
  | entry he =>
    have hmem := entryId?_mem (hentry.symm.trans he)
    refine ⟨fun _ => .entry (hentry.symm.trans he), ?_⟩
    rintro w hw (rfl | rfl)
    · exact absurd hmem (h.header_not_mem hw)
    · exact absurd hmem (h.tail_not_mem hw)
  | skip hr => cases hr
  | @edge u v _ hne huv ih =>
    obtain ⟨hold, hnew⟩ := ih
    rcases h.mem_blockIds.1 (Graph.Edge.mem_nodes huv) with ⟨w, hw, hu⟩ | hu
    · -- out of a loop, into the region or behind it, or around the loop
      have hpred := hnew w hw hu
      have hfresh : ∀ w' ∈ ws, v = w'.code.header ∨ v = w'.code.tail → v = w.code.header ∨
          v = w.code.tail → w' = w := by
        intro w' hw' hv' hv
        refine h.eq_of_mem_fresh hw' hw ?_ (List.mem_pair.2 hv)
        exact List.mem_pair.2 hv'
      have hcases :
          v = w.region.start ∨ v = w.region.succ ∨ v = w.code.header ∨ v = w.code.tail := by
        rcases hu with rfl | rfl
        · rcases (h.edge_header hw).1 huv with rfl | rfl
          · exact Or.inl rfl
          · exact Or.inr (Or.inr (Or.inr rfl))
        · rcases (h.edge_tail hw).1 huv with rfl | rfl
          · exact Or.inr (Or.inl rfl)
          · exact Or.inr (Or.inr (Or.inl rfl))
      rcases hcases with rfl | rfl | hv
      · refine ⟨fun _ => .edge hpred.1 hpred.2 (((h.isRegion hw).leaves _).2 rfl), ?_⟩
        rintro w' hw' (heq | heq)
        · exact absurd (h.start_mem hw) (heq ▸ h.header_not_mem hw')
        · exact absurd (h.start_mem hw) (heq ▸ h.tail_not_mem hw')
      · refine ⟨fun _ => .skip (List.mem_map_of_mem hw) hpred.1 hpred.2, ?_⟩
        rintro w' hw' (heq | heq)
        · exact absurd (h.succ_mem hw) (heq ▸ h.header_not_mem hw')
        · exact absurd (h.succ_mem hw) (heq ▸ h.tail_not_mem hw')
      · refine ⟨fun hmem => ?_, fun w' hw' hv' => hfresh w' hw' hv' hv ▸ hpred⟩
        rcases hv with rfl | rfl
        · exact absurd hmem (h.header_not_mem hw)
        · exact absurd hmem (h.tail_not_mem hw)
    · refine ⟨fun hv => .edge (hold hu) hne ((h.edge_old_old hu hv).1 huv).1, ?_⟩
      rintro w hw (rfl | rfl)
      · rw [(h.edge_old_header hu hw).1 huv] at hold hne hu
        exact ⟨hold hu, hne⟩
      · -- the end of a region is not reached but through its front
        rw [(h.edge_old_tail hu hw).1 huv] at hold hne hu
        exact ((hold hu).through w.region.pred).resolve_right (hexit w hw)

/-- A way from before that may pass regions by is one in the function with loops. -/
theorem evades_looped (h : f.Loopable guard plan ws next)
    (hentry : (f.looped ws next).entryId? = f.entryId?) (hc : c ∈ f.blockIds)
    (hx : f.Evades (ws.map (·.region)) c x) : (f.looped ws next).Evades [] c x := by
  have hheader : ∀ w ∈ ws, w.code.header ≠ c := fun w hw heq => h.header_not_mem hw (heq ▸ hc)
  have htail : ∀ w ∈ ws, w.code.tail ≠ c := fun w hw heq => h.tail_not_mem hw (heq ▸ hc)
  have hfront : ∀ w ∈ ws, (f.looped ws next).Evades [] c w.region.pred → w.region.pred ≠ c →
      (f.looped ws next).Evades [] c w.code.header := fun w hw hpred hne =>
    .edge hpred hne ((h.edge_old_header (h.pred_mem hw) hw).2 rfl)
  have hback : ∀ w ∈ ws, (f.looped ws next).Evades [] c w.code.tail →
      (f.looped ws next).Evades [] c w.region.succ := fun w hw hpred =>
    .edge hpred (htail w hw) ((h.edge_tail hw).2 (Or.inl rfl))
  induction hx with
  | entry he => exact .entry (hentry.trans he)
  | @edge u v _ hne huv ih =>
    have hu := Graph.Edge.mem_nodes huv
    rcases start_or_succ_or_not ws v with ⟨w, hw, rfl⟩ | ⟨w, hw, rfl⟩ | ⟨hstart, hsucc⟩
    · obtain rfl := ((h.isRegion hw).enters u).1 huv
      exact .edge (hfront w hw ih hne) (hheader w hw) ((h.edge_header hw).2 (Or.inl rfl))
    · obtain rfl := ((h.isRegion hw).closes u).1 huv
      exact hback w hw (.edge ih hne ((h.edge_old_tail hu hw).2 rfl))
    · exact .edge ih hne ((h.edge_into_old (h.shaped.mem_of_edge huv) hstart hsucc).2 huv)
  | @skip r hr _ hne ih =>
    obtain ⟨w, hw, rfl⟩ := List.mem_map.1 hr
    refine hback w hw (.edge (hfront w hw ih hne) (hheader w hw) ?_)
    exact (h.edge_header hw).2 (Or.inr rfl)

end Loopable

end BarrierLowering.Func
