import BarrierLowering.Analysis
import BarrierLowering.Proofs.BarrierMap
import BarrierLowering.Proofs.Events
import BarrierLowering.Proofs.Paths
import Mathlib

/-!
# The sequence of the barriers

The analysis looks at maximal acyclic paths only, and rejects a kernel with a barrier on a
cycle. A plan says more than that: the barriers run in its order on every walk, however often
the walk goes round in cycles.

## Main definitions

* `Func.barriers`, `Func.barriersOn` — the barriers of a function, and those a walk runs.
* `Func.InOrder` — the barriers run in one order, whatever way control takes.
* `Survey.Covers` — what a survey has found out about the paths it has seen.

## Main results

* `Func.plan_eq_ok_iff`, `Func.draft_eq_ok` — what a plan stands for.
* `Func.inOrder_of_draft`, `Func.barriers_in_order` — the barriers of a plan, on all walks.
-/

namespace BarrierLowering

/-- In a list whose keys are distinct, a key belongs to one member. -/
theorem filter_key_eq_singleton {α β : Type} [DecidableEq β] {key : α → β} {l : List α} {a : α}
    (hnd : (l.map key).Nodup) (ha : a ∈ l) : l.filter (fun x => key x = key a) = [a] := by
  obtain ⟨l₁, l₂, rfl⟩ := List.append_of_mem ha
  rw [List.map_append, List.map_cons, List.nodup_append, List.nodup_cons] at hnd
  obtain ⟨-, ⟨hright, -⟩, hleft⟩ := hnd
  have h₁ : l₁.filter (fun x => key x = key a) = [] := by
    rw [List.filter_eq_nil_iff]
    intro x hx heq
    exact hleft (key x) (List.mem_map_of_mem hx) (key a) List.mem_cons_self (of_decide_eq_true heq)
  have h₂ : l₂.filter (fun x => key x = key a) = [] := by
    rw [List.filter_eq_nil_iff]
    intro x hx heq
    exact hright (of_decide_eq_true heq ▸ List.mem_map_of_mem hx)
  have hself : (a :: l₂).filter (fun x => key x = key a) = a :: l₂.filter fun x => key x = key a :=
    List.filter_cons_of_pos (decide_eq_true rfl)
  rw [List.filter_append, hself, h₁, h₂, List.nil_append]

/-- Looking a key up among keys that are mapped to what belongs to them. -/
theorem lookup_map_key {α β : Type} [DecidableEq α] {l : List α} {g : α → β} {a : α} :
    (l.map fun x => (x, g x)).lookup a = if a ∈ l then some (g a) else none := by
  induction l with
  | nil => rfl
  | cons x l ih =>
    rw [List.map_cons, List.lookup_cons, ih]
    by_cases hx : a = x
    · subst hx
      simp
    · have hbeq : (a == x) = false := beq_eq_false_iff_ne.2 hx
      simp [hx, hbeq]

/-! ### The barriers of a block -/

namespace Func

variable {f : Func} {rule : NameRule} {b : BlockId} {blk : Block} {w w' : List BlockId}

/-- The barriers of a function, in block order. -/
def barriers (rule : NameRule) (f : Func) : List InstrId :=
  (f.instrs.filter fun i => i.kind rule = .barrier).map (·.id)

/-- The barriers of the block with the given identifier. -/
def barriersOf (rule : NameRule) (f : Func) (b : BlockId) : List InstrId :=
  ((f.instrsOf b).filter fun i => i.kind rule = .barrier).map (·.id)

/-- The barriers that a walk runs, in the order in which it does. -/
def barriersOn (rule : NameRule) (f : Func) (w : List BlockId) : List InstrId :=
  ((f.instrsOn w).filter fun i => i.kind rule = .barrier).map (·.id)

theorem barriersOf_of_block? (h : f.block? b = some blk) :
    f.barriersOf rule b = blk.barriers rule := by
  rw [barriersOf, instrsOf_of_block? h]
  rfl

theorem barriersOn_eq_flatMap : f.barriersOn rule w = w.flatMap (f.barriersOf rule) := by
  rw [barriersOn, instrsOn, List.filter_flatMap, List.map_flatMap]
  rfl

theorem mem_barriersOn_iff {i : InstrId} :
    i ∈ f.barriersOn rule w ↔ ∃ b ∈ w, i ∈ f.barriersOf rule b := by
  rw [barriersOn_eq_flatMap, List.mem_flatMap]

theorem barriersOn_append (w w' : List BlockId) :
    f.barriersOn rule (w ++ w') = f.barriersOn rule w ++ f.barriersOn rule w' := by
  simp [barriersOn_eq_flatMap]

theorem barriers_eq_flatMap : f.barriers rule = f.blocks.flatMap (·.barriers rule) := by
  rw [barriers, instrs, List.filter_flatMap, List.map_flatMap]
  rfl

/-- The barriers of a function run in one order, which lists each of them: on every walk they
run in that order, and all of them have run when the walk cannot go on. Some walk runs them
all. -/
structure InOrder (rule : NameRule) (f : Func) (order : List InstrId) : Prop where
  perm : order.Perm (f.barriers rule)
  onWalk : ∀ w, f.graph.IsWalk w → f.barriersOn rule w <+: order
  onExit : ∀ w b, f.graph.IsWalk (w ++ [b]) → f.successors b = [] →
    f.barriersOn rule (w ++ [b]) = order
  complete : ∃ w, f.graph.IsWalk w ∧ f.barriersOn rule w = order

namespace InOrder

variable {order : List InstrId}

/-- Each member of the order is a barrier. -/
theorem exists_barrier (h : f.InOrder rule order) {i : InstrId} (hi : i ∈ order) :
    ∃ z ∈ f.instrs, z.id = i ∧ z.kind rule = .barrier := by
  obtain ⟨z, hz, rfl⟩ := List.mem_map.1 (h.perm.mem_iff.1 hi)
  obtain ⟨hz, hkind⟩ := List.mem_filter.1 hz
  exact ⟨z, hz, rfl, of_decide_eq_true hkind⟩

/-- No other instruction has the identifier of a barrier. -/
theorem id_not_mem (h : f.InOrder rule order) (hids : (f.instrs.map (·.id)).Nodup) {z : Instr}
    (hz : z ∈ f.instrs) (hkind : z.kind rule ≠ .barrier) : z.id ∉ order := by
  intro hi
  obtain ⟨z', hz', hid, hkind'⟩ := h.exists_barrier hi
  rw [List.inj_on_of_nodup_map hids hz' hz hid] at hkind'
  exact hkind hkind'

theorem nodup (h : f.InOrder rule order) (hids : (f.instrs.map (·.id)).Nodup) : order.Nodup :=
  h.perm.nodup_iff.2 (hids.sublist (List.Sublist.map _ List.filter_sublist))

end InOrder

/-! ### The map of the barriers -/

/-- The blocks with barriers, in block order. -/
def barrierHomes (rule : NameRule) (f : Func) : List BlockId :=
  (f.blocks.filter fun blk => blk.barriers rule ≠ []).map (·.id)

theorem nodup_barrierHomes (hids : f.blockIds.Nodup) : (f.barrierHomes rule).Nodup :=
  hids.sublist (List.Sublist.map _ List.filter_sublist)

/-- With distinct identifiers, the map holds what the blocks with barriers hold. -/
theorem barrierMap_eq (hids : f.blockIds.Nodup) :
    f.barrierMap rule = (f.barrierHomes rule).map fun b => (b, f.barriersOf rule b) := by
  rw [barrierMap]
  change (f.barrierHomes rule).eraseDups.map _ = _
  rw [eraseDups_eq_self (nodup_barrierHomes hids)]
  refine List.map_congr_left fun b hb => ?_
  obtain ⟨blk, hblk, rfl⟩ := List.mem_map.1 hb
  have hmem := (List.mem_filter.1 hblk).1
  rw [filter_key_eq_singleton hids hmem, List.flatMap_singleton,
    barriersOf_of_block? (block?_id hids hmem)]

theorem barrierMap_eq_nil_iff (hids : f.blockIds.Nodup) :
    f.barrierMap rule = [] ↔ f.barriers rule = [] := by
  rw [barrierMap_eq hids, List.map_eq_nil_iff, barrierHomes, List.map_eq_nil_iff,
    barriers_eq_flatMap, List.flatMap_eq_nil_iff, List.filter_eq_nil_iff]
  simp

theorem mem_barrierHomes_iff (hids : f.blockIds.Nodup) :
    b ∈ f.barrierHomes rule ↔ f.barriersOf rule b ≠ [] := by
  constructor
  · intro hb
    obtain ⟨blk, hblk, rfl⟩ := List.mem_map.1 hb
    obtain ⟨hmem, hne⟩ := List.mem_filter.1 hblk
    rw [barriersOf_of_block? (block?_id hids hmem)]
    exact of_decide_eq_true hne
  · intro hne
    cases hb : f.block? b with
    | none =>
      rw [barriersOf, instrsOf, hb] at hne
      exact absurd rfl hne
    | some blk =>
      rw [barriersOf_of_block? hb] at hne
      obtain ⟨hmem, rfl⟩ := block?_mem hb
      exact List.mem_map.2 ⟨blk, List.mem_filter.2 ⟨hmem, decide_eq_true hne⟩, rfl⟩

theorem holds_barrierMap (hids : f.blockIds.Nodup) :
    (f.barrierMap rule).holds b = decide (f.barriersOf rule b ≠ []) := by
  rw [BarrierMap.holds, barrierMap_eq hids, lookup_map_key, ← Bool.coe_iff_coe,
    decide_eq_true_iff, ← mem_barrierHomes_iff hids]
  split <;> simp_all

theorem barriersOf_barrierMap (hids : f.blockIds.Nodup) :
    (f.barrierMap rule).barriersOf b = f.barriersOf rule b := by
  rw [BarrierMap.barriersOf, barrierMap_eq hids, lookup_map_key]
  split
  · rfl
  · next hb => rw [mem_barrierHomes_iff hids, not_not] at hb; rw [hb]; rfl

/-- The barriers of a walk are those of the blocks with barriers on it. -/
theorem barriersOn_eq_visited (hids : f.blockIds.Nodup) :
    f.barriersOn rule w = (w.filter (f.barrierMap rule).holds).flatMap
      (f.barrierMap rule).barriersOf := by
  have hsame : (f.barrierMap rule).barriersOf = f.barriersOf rule :=
    funext fun b => barriersOf_barrierMap hids
  rw [barriersOn_eq_flatMap, hsame]
  refine (flatMap_filter_eq fun b _ hb => ?_).symm
  rw [holds_barrierMap hids] at hb
  exact not_not.1 (of_decide_eq_false hb)

/-- The barriers of the blocks with barriers are all barriers. -/
theorem flatMap_barrierHomes (hids : f.blockIds.Nodup) :
    (f.barrierHomes rule).flatMap (f.barriersOf rule) = f.barriers rule := by
  have hsame : ∀ blk ∈ f.blocks.filter fun blk => blk.barriers rule ≠ [],
      f.barriersOf rule blk.id = blk.barriers rule := fun blk hblk =>
    barriersOf_of_block? (block?_id hids (List.mem_filter.1 hblk).1)
  rw [barrierHomes, List.flatMap_map, List.flatMap_congr hsame, barriers_eq_flatMap]
  exact flatMap_filter_eq fun blk _ hout => not_not.1 (of_decide_eq_false hout)

/-- The map holds the barriers of the function, even where blocks have the same identifier. -/
theorem barriers_barrierMap_perm : (f.barrierMap rule).barriers.Perm (f.barriers rule) := by
  rw [barriers_eq_flatMap]
  exact barriers_barrierMap_perm_flatMap

/-- Blocks with barriers that are visited once each, and are not too few, run all barriers. -/
theorem barriers_perm {visited : List BlockId} (hnd : visited.Nodup)
    (hsub : ∀ b ∈ visited, (f.barrierMap rule).holds b = true)
    (hlen : (f.barrierMap rule).length ≤ visited.length) :
    (visited.flatMap (f.barrierMap rule).barriersOf).Perm (f.barriers rule) :=
  (BarrierMap.perm_barriers nodup_homes_barrierMap hnd hsub hlen).trans barriers_barrierMap_perm

end Func

/-! ### What a survey finds out -/

namespace Survey

variable {m : BarrierMap} {s s' : Survey} {p : Path BlockId} {ps : List (Path BlockId)}

/-- A survey has seen some paths. Each of them visits all blocks with barriers or, unless it
ends at an exit, none, and all of them agree on the order, which one of them has given. -/
structure Covers (m : BarrierMap) (ps : List (Path BlockId)) (s : Survey) : Prop where
  agree : ∀ p ∈ ps, p.nodes.filter m.holds ≠ [] →
    m.length ≤ (p.nodes.filter m.holds).length ∧
      s.order = some ((p.nodes.filter m.holds).flatMap m.barriersOf)
  exits : ∀ p ∈ ps, p.finish = .exit → m.length ≤ (p.nodes.filter m.holds).length
  given : ∀ order, s.order = some order → ∃ p ∈ ps, p.nodes.filter m.holds ≠ [] ∧
    order = (p.nodes.filter m.holds).flatMap m.barriersOf

theorem covers_start (m : BarrierMap) : Covers m [] start :=
  ⟨nofun, nofun, nofun⟩

/-- Counting a path does not touch the order. -/
@[simp] theorem order_count (s : Survey) (p : Path BlockId) (visited : List BlockId) :
    (s.count p visited).order = s.order := by
  unfold count
  split <;> rfl

/-- What a visit that does not break off says about the path. -/
theorem visit_eq_none (h : visit m s p = (s', none)) :
    (p.nodes.filter m.holds = [] → (p.finish = .exit → m.length = 0) ∧ s'.order = s.order) ∧
    (p.nodes.filter m.holds ≠ [] → m.length ≤ (p.nodes.filter m.holds).length ∧
      s'.order = some ((p.nodes.filter m.holds).flatMap m.barriersOf) ∧
      (s.order = none ∨ s.order = s'.order)) := by
  unfold visit at h
  simp only [order_count, Bool.and_eq_true, decide_eq_true_eq, Bool.or_eq_true, Bool.not_eq_true',
    List.isEmpty_iff, List.isEmpty_eq_false_iff, Path.isExit] at h
  split at h
  · cases h
  · next hall =>
    split at h
    · next hnil =>
      cases h
      refine ⟨fun _ => ⟨fun hexit => ?_, order_count ..⟩, fun hne => absurd hnil hne⟩
      rw [hnil, List.length_nil] at hall
      by_contra hpos
      exact hall ⟨Nat.pos_of_ne_zero hpos, Or.inl hexit⟩
    · next hne =>
      have hlen : m.length ≤ (p.nodes.filter m.holds).length := by
        by_contra hlt
        exact hall ⟨Nat.lt_of_not_le hlt, Or.inr hne⟩
      refine ⟨fun hnil => absurd hnil hne, fun _ => ⟨hlen, ?_⟩⟩
      split at h
      · next hnone =>
        cases h
        exact ⟨rfl, Or.inl hnone⟩
      · next first hfirst =>
        cases h' : decide ((p.nodes.filter m.holds).flatMap m.barriersOf = first) with
        | false => simp_all
        | true =>
          have heq := of_decide_eq_true h'
          rw [if_pos heq] at h
          cases h
          exact ⟨by rw [order_count, hfirst, heq], Or.inr (order_count ..).symm⟩

/-- One more path that does not break the survey off. -/
theorem Covers.snoc (h : Covers m ps s) (hvisit : visit m s p = (s', none)) :
    Covers m (ps ++ [p]) s' := by
  obtain ⟨hnone, hsome⟩ := visit_eq_none hvisit
  by_cases hnil : p.nodes.filter m.holds = []
  · obtain ⟨hexit, horder⟩ := hnone hnil
    refine ⟨?_, ?_, ?_⟩
    · intro q hq hne
      rcases List.mem_append.1 hq with hq | hq
      · rw [horder]
        exact h.agree q hq hne
      · rw [List.mem_singleton.1 hq] at hne
        exact absurd hnil hne
    · intro q hq hfin
      rcases List.mem_append.1 hq with hq | hq
      · exact h.exits q hq hfin
      · rw [List.mem_singleton.1 hq] at hfin ⊢
        rw [hexit hfin]
        exact Nat.zero_le _
    · intro order ho
      obtain ⟨q, hq, hgiven⟩ := h.given order (horder ▸ ho)
      exact ⟨q, List.mem_append_left _ hq, hgiven⟩
  · obtain ⟨hlen, horder, hbefore⟩ := hsome hnil
    refine ⟨?_, ?_, ?_⟩
    · intro q hq hne
      rcases List.mem_append.1 hq with hq | hq
      · obtain ⟨hle, hq⟩ := h.agree q hq hne
        refine ⟨hle, ?_⟩
        rcases hbefore with hbefore | hbefore
        · rw [hbefore] at hq
          cases hq
        · rwa [← hbefore]
      · rw [List.mem_singleton.1 hq]
        exact ⟨hlen, horder⟩
    · intro q hq hfin
      rcases List.mem_append.1 hq with hq | hq
      · exact h.exits q hq hfin
      · rwa [List.mem_singleton.1 hq]
    · intro order ho
      refine ⟨p, List.mem_append_right _ (List.mem_singleton.2 rfl), hnil, ?_⟩
      exact Option.some.inj (ho.symm.trans horder)

/-- All paths of a survey that was not broken off. -/
theorem Covers.append {qs : List (Path BlockId)} (h : Covers m ps s)
    (haccepts : (visit m).Accepts s qs s') : Covers m (ps ++ qs) s' := by
  induction haccepts generalizing ps with
  | nil s => rwa [List.append_nil]
  | cons hp _ ih =>
    rw [List.append_cons]
    exact ih (h.snoc hp)

end Survey

namespace Func

variable {f : Func} {config : Config} {plan : Plan} {m : BarrierMap} {order : List InstrId}
  {s : Survey} {maxPaths : Nat} {e : BlockId}

/-- A survey of a function has accepted all completions of the entry. -/
theorem exists_accepts_of_survey (he : f.entryId? = some e)
    (h : f.survey maxPaths m = .ok (order, s)) :
    s.order = some order ∧ ∃ ps, (Survey.visit m).Accepts Survey.start ps s ∧
      ps.map Path.course = f.graph.completions [] e := by
  unfold survey at h
  split at h
  · cases h
  · cases h
  · next s' hvisit =>
    obtain ⟨ps, hps, hcourses⟩ := Graph.accepts_of_visitPaths he hvisit
    split at h
    · cases h
    · next order' horder =>
      cases h
      exact ⟨horder, ps, hps, hcourses⟩

/-- A survey of a function covers all completions of the entry. -/
theorem survey_eq_ok (he : f.entryId? = some e) (h : f.survey maxPaths m = .ok (order, s)) :
    s.order = some order ∧ ∃ ps, Survey.Covers m ps s ∧
      ps.map Path.course = f.graph.completions [] e := by
  obtain ⟨horder, ps, hps, hcourses⟩ := exists_accepts_of_survey he h
  exact ⟨horder, ps, by simpa using (Survey.covers_start m).append hps, hcourses⟩

/-! ### Plans -/

/-- A plan is a draft in which no value crosses a barrier. -/
theorem plan_eq_ok_iff : f.plan config = .ok plan ↔
    f.draft config = .ok plan ∧ f.crossing? ⟨plan.anchor, plan.barriers⟩ = none := by
  unfold Func.plan
  cases f.draft config with
  | error reason => exact ⟨nofun, nofun⟩
  | ok draft =>
    simp only [bind, Except.bind]
    constructor
    · intro h
      split at h
      · cases h
      · next hnone =>
        cases h
        exact ⟨rfl, hnone⟩
    · rintro ⟨h, hnone⟩
      cases h
      rw [hnone]
      rfl

/-- A survey fails because of the paths. -/
theorem survey_ne_liveAcrossBarrier {v : ValueId} {i : InstrId} :
    f.survey maxPaths m ≠ .error (.liveAcrossBarrier v i) := by
  intro h
  unfold survey at h
  split at h
  · cases h
  · next s' reason hvisit =>
    cases h
    obtain ⟨s, p, hbroken⟩ := Graph.exists_of_visitPaths_broken hvisit
    unfold Survey.visit at hbroken
    dsimp only at hbroken
    split at hbroken
    · cases hbroken
    · split at hbroken
      · cases hbroken
      · split at hbroken
        · cases hbroken
        · split at hbroken <;> cases hbroken
  · split at h <;> cases h

/-- A draft is not rejected because of a value. -/
theorem draft_ne_liveAcrossBarrier {v : ValueId} {i : InstrId} :
    f.draft config ≠ .error (.liveAcrossBarrier v i) := by
  intro h
  unfold draft at h
  cases hentry : f.entry? with
  | none => rw [hentry] at h; cases h
  | some entry =>
    rw [hentry] at h
    dsimp only at h
    split at h
    · cases h
    · cases hqueries : entry.findQueries config.nameRule with
      | error reason =>
        rw [hqueries] at h
        cases h
        unfold Block.findQueries at hqueries
        split at hqueries
        · cases hqueries
        · cases hqueries
        · dsimp only at hqueries
          split at hqueries <;> cases hqueries
      | ok queries =>
        rw [hqueries] at h
        cases hsurvey : f.survey config.maxPaths (f.barrierMap config.nameRule) with
        | error reason =>
          rw [hsurvey] at h
          cases h
          exact survey_ne_liveAcrossBarrier hsurvey
        | ok found =>
          obtain ⟨order, s⟩ := found
          rw [hsurvey] at h
          simp only [bind, Except.bind] at h
          split at h <;> cases h

/-- A kernel is rejected because of a value if its draft has one that crosses a barrier. -/
theorem plan_eq_liveAcrossBarrier_iff {v : ValueId} {i : InstrId} :
    f.plan config = .error (.liveAcrossBarrier v i) ↔ ∃ draft, f.draft config = .ok draft ∧
      f.crossing? ⟨draft.anchor, draft.barriers⟩ = some (v, i) := by
  unfold Func.plan
  cases hdraft : f.draft config with
  | error reason =>
    refine iff_of_false (fun h => ?_) (by rintro ⟨draft, h, -⟩; cases h)
    obtain rfl : reason = .liveAcrossBarrier v i := Except.error.inj h
    exact draft_ne_liveAcrossBarrier hdraft
  | ok draft =>
    simp only [bind, Except.bind]
    constructor
    · intro h
      split at h
      · next hcross =>
        cases h
        exact ⟨draft, rfl, hcross⟩
      · cases h
    · rintro ⟨draft', h, hcross⟩
      cases h
      rw [hcross]
      rfl

/-- What a draft stands for. -/
theorem draft_eq_ok (h : f.draft config = .ok plan) :
    ∃ entry s, f.entry? = some entry ∧ f.barrierMap config.nameRule ≠ [] ∧
      entry.findQueries config.nameRule = .ok plan.toQueries ∧
      f.survey config.maxPaths (f.barrierMap config.nameRule) = .ok (plan.barriers, s) ∧
      plan.records = f.barrierRecords (f.barrierMap config.nameRule) plan.barriers s ∧
      (∀ r ∈ plan.records, r.pattern = .simple) ∧ plan.pathsExamined = s.examined := by
  unfold draft at h
  cases hentry : f.entry? with
  | none => rw [hentry] at h; cases h
  | some entry =>
    rw [hentry] at h
    dsimp only at h
    split at h
    · cases h
    · next hempty =>
      cases hqueries : entry.findQueries config.nameRule with
      | error reason => rw [hqueries] at h; cases h
      | ok queries =>
        rw [hqueries] at h
        cases hsurvey : f.survey config.maxPaths (f.barrierMap config.nameRule) with
        | error reason => rw [hsurvey] at h; cases h
        | ok found =>
          obtain ⟨order, s⟩ := found
          rw [hsurvey] at h
          simp only [bind, Except.bind] at h
          split at h
          · cases h
          · next hfind =>
            cases h
            refine ⟨entry, s, rfl, by simpa using hempty, hqueries, rfl, rfl, ?_, rfl⟩
            intro r hr
            simpa using List.find?_eq_none.1 hfind r hr

/-- No barrier of a planned kernel is on a cycle. -/
theorem not_onCycle_of_draft (hids : f.blockIds.Nodup) (h : f.draft config = .ok plan)
    {b : BlockId} (hb : f.barriersOf config.nameRule b ≠ []) : ¬ f.graph.OnCycle b := by
  obtain ⟨entry, s, -, -, -, -, hrecords, hsimple, -⟩ := draft_eq_ok h
  obtain ⟨i, is, hi⟩ := List.exists_cons_of_ne_nil hb
  have hmem : b ∈ f.blockIds := by
    cases hblk : f.block? b with
    | none =>
      rw [barriersOf, instrsOf, hblk] at hb
      exact absurd rfl hb
    | some blk => exact mem_blockIds_iff.2 ⟨blk, hblk⟩
  have hrecord : ⟨i, b, f.pattern plan.barriers s b i⟩ ∈ plan.records := by
    rw [hrecords, barrierRecords]
    refine List.mem_flatMap.2 ⟨b, hmem, List.mem_map.2 ⟨i, ?_, rfl⟩⟩
    rw [barriersOf_barrierMap hids, hi]
    exact List.mem_cons_self
  have hpattern := hsimple _ hrecord
  intro hcycle
  simp [pattern, Graph.onCycle_iff.2 hcycle] at hpattern

/-! ### All walks -/

/-- The barriers of a drafted kernel run in the order of the draft. -/
theorem inOrder_of_draft (hids : f.blockIds.Nodup) (h : f.draft config = .ok plan) :
    f.InOrder config.nameRule plan.barriers := by
  obtain ⟨entry, s, hentry, hne, -, hsurvey, -⟩ := draft_eq_ok h
  have he : f.entryId? = some entry.id := by rw [entryId?, hentry, Option.map_some]
  obtain ⟨horder, ps, hcovers, hcourses⟩ := survey_eq_ok he hsurvey
  -- one of the paths gave the order, and it visited all blocks with barriers
  obtain ⟨p, hp, hvisits, hgiven⟩ := hcovers.given plan.barriers horder
  obtain ⟨hwalk, hnd⟩ := Graph.isWalk_of_mem_completions
    (show f.graph.IsWalk ([] ++ [entry.id]) from Graph.isWalk_singleton.2 he) List.nodup_nil
    (hcourses ▸ List.mem_map_of_mem hp)
  have hholds : ∀ b, (f.barrierMap config.nameRule).holds b = true → ¬ f.graph.OnCycle b := by
    intro b hb
    rw [holds_barrierMap hids, decide_eq_true_iff] at hb
    exact not_onCycle_of_draft hids h hb
  -- a walk runs the barriers that it runs without its detours, and those are on some path
  have hpath : ∀ w b, f.graph.IsWalk (w ++ [b]) → ∃ w' q, q ∈ ps ∧ w' ++ [b] <+: q.nodes ∧
      f.barriersOn config.nameRule (w ++ [b]) = f.barriersOn config.nameRule (w' ++ [b]) ∧
      (f.successors b = [] → q.course = (w' ++ [b], .exit)) := by
    intro w b hw
    obtain ⟨w', hw', hnd', hsame⟩ := hw.exists_nodup hholds
    obtain ⟨c, hc, hpre, hexit⟩ := Graph.exists_completion he hw' hnd'
    rw [← hcourses] at hc
    obtain ⟨q, hq, rfl⟩ := List.mem_map.1 hc
    refine ⟨w', q, hq, hpre, ?_, fun hs => hexit b (by simp) (by rw [succs_graph, hs])⟩
    rw [barriersOn_eq_visited hids, barriersOn_eq_visited hids, hsame]
  have hagree : ∀ q ∈ ps, q.nodes.filter (f.barrierMap config.nameRule).holds ≠ [] →
      f.barriersOn config.nameRule q.nodes = plan.barriers := by
    intro q hq hne
    rw [barriersOn_eq_visited hids]
    exact Option.some.inj ((hcovers.agree q hq hne).2.symm.trans horder)
  refine ⟨?_, fun w hw => ?_, fun w b hw hs => ?_, p.nodes, hwalk, hagree p hp hvisits⟩
  · rw [hgiven]
    refine barriers_perm (hnd.filter _) (fun b hb => (List.mem_filter.1 hb).2) ?_
    exact (hcovers.agree p hp hvisits).1
  · obtain ⟨w, b, rfl⟩ : ∃ w' b, w = w' ++ [b] :=
      ⟨_, _, (List.dropLast_append_getLast hw.ne_nil).symm⟩
    obtain ⟨w', q, hq, hpre, hsame, -⟩ := hpath w b hw
    have hprefix : f.barriersOn config.nameRule (w ++ [b]) <+:
        f.barriersOn config.nameRule q.nodes := by
      rw [hsame, barriersOn_eq_flatMap, barriersOn_eq_flatMap]
      exact hpre.flatMap _
    by_cases hnil : q.nodes.filter (f.barrierMap config.nameRule).holds = []
    · rw [barriersOn_eq_visited hids (w := q.nodes), hnil] at hprefix
      exact hprefix.trans List.nil_prefix
    · rwa [hagree q hq hnil] at hprefix
  · obtain ⟨w', q, hq, -, hsame, hexit⟩ := hpath w b hw
    have hnodes : q.nodes = w' ++ [b] := congrArg Prod.fst (hexit hs)
    rw [hsame, ← hnodes]
    refine hagree q hq fun hnil => hne (List.length_eq_zero_iff.1 (Nat.le_zero.1 ?_))
    have hlen := hcovers.exits q hq (congrArg Prod.snd (hexit hs))
    rwa [hnil] at hlen

/-- **The barriers of a planned kernel run in one order.**  The plan lists each barrier of the
kernel once. On a walk of any length the barriers run in the order of the plan, and all of them
have run when the walk comes to a block without successors. -/
theorem barriers_in_order (f : Func) (config : Config) (plan : Plan) (hids : f.blockIds.Nodup)
    (hinstrs : (f.instrs.map (·.id)).Nodup) (h : f.plan config = .ok plan) :
    plan.barriers.Nodup ∧
      (∀ i, i ∈ plan.barriers ↔ ∃ instr ∈ f.instrs, instr.kind config.nameRule = .barrier ∧
        instr.id = i) ∧
      ∀ w, f.graph.IsWalk w → f.barriersOn config.nameRule w <+: plan.barriers ∧
        ∀ b ∈ w.getLast?, f.successors b = [] →
          f.barriersOn config.nameRule w = plan.barriers := by
  have hord := inOrder_of_draft hids (plan_eq_ok_iff.1 h).1
  refine ⟨?_, fun i => ?_, fun w hw => ⟨hord.onWalk w hw, fun b hb hs => ?_⟩⟩
  · exact hord.nodup hinstrs
  · rw [hord.perm.mem_iff, barriers, List.mem_map]
    simp only [List.mem_filter, decide_eq_true_iff, and_assoc]
  · obtain ⟨w, rfl⟩ := List.getLast?_eq_some_iff.1 hb
    exact hord.onExit w b hw hs

/-- A kernel that goes round in a loop for a while before its threads wait for each other. -/
def waiting : Func where
  name := "waiting"
  convention := .kernel
  returnTy := .void
  params := []
  blocks :=
    [⟨⟨0⟩, "entry",
        [⟨⟨0⟩, some ⟨0⟩, .call "__hip_cg_thread_rank" [], .i32⟩,
          ⟨⟨1⟩, some ⟨1⟩, .call "__hip_cg_group_size" [], .i32⟩,
          ⟨⟨2⟩, some ⟨2⟩, .const (.bool true), .bool⟩],
        .branch ⟨1⟩⟩,
      ⟨⟨1⟩, "loop", [], .condBranch ⟨2⟩ ⟨1⟩ ⟨2⟩⟩,
      ⟨⟨2⟩, "wait", [⟨⟨3⟩, none, .call "__hip_cg_sync" [], .void⟩], .ret none⟩]
  next := ⟨3, 3, 4⟩

/-- However often control goes round the loop, the threads wait once. -/
theorem barriers_in_order_waiting : waiting.blockIds.Nodup ∧
    (waiting.instrs.map (·.id)).Nodup ∧ ∃ plan, waiting.plan .standard = .ok plan ∧
      waiting.graph.IsWalk [⟨0⟩, ⟨1⟩, ⟨1⟩, ⟨1⟩, ⟨2⟩] ∧
      waiting.barriersOn .intrinsics [⟨0⟩, ⟨1⟩, ⟨1⟩, ⟨1⟩, ⟨2⟩] = plan.barriers := by
  have hids : waiting.blockIds.Nodup := by decide
  have hinstrs : (waiting.instrs.map (·.id)).Nodup := by decide
  have hplan : waiting.plan .standard =
      .ok ⟨⟨⟨0⟩, ⟨1⟩, ⟨0⟩, ⟨1⟩, .i32, .i32⟩, [⟨3⟩], [⟨⟨3⟩, ⟨2⟩, .simple⟩], 2⟩ := by cbv
  have hw : waiting.graph.IsWalk [⟨0⟩, ⟨1⟩, ⟨1⟩, ⟨1⟩, ⟨2⟩] := ⟨⟨⟨0⟩, rfl, rfl⟩, by decide⟩
  obtain ⟨-, -, hwalks⟩ := barriers_in_order waiting .standard _ hids hinstrs hplan
  exact ⟨hids, hinstrs, _, hplan, hw, (hwalks _ hw).2 ⟨2⟩ rfl rfl⟩

end Func

end BarrierLowering
