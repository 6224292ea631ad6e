import BarrierLowering.Proofs.Limit
import BarrierLowering.Proofs.Rejected

/-!
# What the paths leave open

The analysis asks of each barrier whether it is on a cycle, whether every path to an exit visits its
block, and whether it is in the common order. It asks once all paths were looked at, and the paths
have answered all but the first question by then. This is so for any function, even one whose
identifiers repeat: a path visits no block identifier twice, and the map of the barriers gathers
what belongs to one identifier.

## Main definitions

* `Func.Compares` — the analysis compares what a path runs with the order that it knows.

## Main results

* `Func.survey_eq_orderMismatch_iff` — the paths disagree where two sequences differ.
* `Func.Compares.perm` — both sequences hold each barrier of the function once.
* `Func.inLoop_of_unsupported` — only a loop makes a barrier unsupported.
-/

namespace BarrierLowering

/-! ### Comparisons -/

namespace Survey

variable {m : BarrierMap} {s : Survey} {p : Path BlockId} {ps : List (Path BlockId)}
  {sequence reference : List InstrId} {k : Nat}

/-- A survey goes on from a comparison if both sequences are the same. -/
theorem Compares.visit_eq (h : Compares m s p sequence reference) :
    (visit m s p).2 = if sequence = reference then none else some (.orderMismatch p.id) := by
  have hknown : (s.count p (p.nodes.filter m.holds)).order = some reference := by
    rw [order_count, h.known]
  unfold visit
  dsimp only
  rw [decide_eq_false (Nat.not_lt.2 h.enough), List.isEmpty_eq_false_iff.2 h.visits, h.runs]
  simp only [Bool.false_and, Bool.false_eq_true, if_false, hknown]

/-- A survey is broken off because of the order where it compares two sequences that differ. -/
theorem visit_eq_orderMismatch_iff : (visit m s p).2 = some (.orderMismatch k) ↔
    p.id = k ∧ ∃ sequence reference, Compares m s p sequence reference ∧ sequence ≠ reference := by
  constructor
  · intro h
    rcases visit_eq_some (Prod.ext rfl h) with ⟨hpartial, -⟩ | ⟨hmismatch, hcompares⟩
    · cases hpartial
    · cases hmismatch
      exact ⟨rfl, hcompares⟩
  · rintro ⟨rfl, sequence, reference, h, hne⟩
    rw [h.visit_eq, if_neg hne]

/-- Both sequences hold each barrier of the map once. -/
theorem Compares.perm (h : Compares m s p sequence reference) (hm : m.homes.Nodup)
    (hcovers : Covers m ps s) (hps : ∀ q ∈ ps, q.nodes.Nodup) (hp : p.nodes.Nodup) :
    sequence.Perm m.barriers ∧ reference.Perm m.barriers := by
  have hperm : ∀ {q : Path BlockId}, q.nodes.Nodup →
      m.length ≤ (q.nodes.filter m.holds).length →
      ((q.nodes.filter m.holds).flatMap m.barriersOf).Perm m.barriers := fun hnd hle =>
    BarrierMap.perm_barriers hm (hnd.filter _) (fun b hb => (List.mem_filter.1 hb).2) hle
  -- the order is that of a path before, which visits as many blocks
  obtain ⟨q, hq, hvisits, hgiven⟩ := hcovers.given reference h.known
  rw [← h.runs, hgiven]
  exact ⟨hperm hp h.enough, hperm (hps q hq) (hcovers.agree q hq hvisits).1⟩

end Survey

namespace Func

variable {f : Func} {config : Config} {p : Path BlockId} {sequence reference : List InstrId}
  {m : BarrierMap} {maxPaths k : Nat} {reason : Rejection}

/-- The analysis comes to a path and compares the sequence of the barriers on it with the order that
the paths before have given. -/
def Compares (f : Func) (config : Config) (p : Path BlockId) (sequence reference : List InstrId) :
    Prop :=
  let visitor := Survey.visit (f.barrierMap config.nameRule)
  ∃ before after, f.graph.visited config.maxPaths visitor .start = before ++ p :: after ∧
    Survey.Compares (f.barrierMap config.nameRule) (visitor.watch .start before) p sequence
      reference

/-- The paths that the analysis comes to visit no block twice. -/
theorem nodup_of_mem_visited {visitor : Visitor BlockId Survey Rejection} {s : Survey}
    (hp : p ∈ f.graph.visited maxPaths visitor s) : p.nodes.Nodup := by
  obtain ⟨ps, hcourses, hshown⟩ := f.graph.exists_visited
  have hp : p ∈ ps := (hshown _ _ maxPaths visitor s).1.subset hp
  cases he : f.entryId? with
  | none =>
    have hroutes : f.graph.routes = [] := by
      rw [Graph.routes, show f.graph.entry = none from he]
    rw [hroutes, List.map_nil, List.map_eq_nil_iff] at hcourses
    rw [hcourses] at hp
    cases hp
  | some e =>
    rw [Graph.map_course_routes he] at hcourses
    exact nodup_of_courses he hcourses hp

/-- Both sequences of a comparison hold each barrier of the function once. -/
theorem Compares.perm (h : f.Compares config p sequence reference) :
    sequence.Perm (f.barrierMap config.nameRule).barriers ∧
      reference.Perm (f.barrierMap config.nameRule).barriers := by
  obtain ⟨before, after, hvisited, hcompares⟩ := h
  obtain ⟨ps, -, hshown⟩ := f.graph.exists_visited
  obtain ⟨-, hrecorded⟩ := hshown _ _ config.maxPaths
    (Survey.visit (f.barrierMap config.nameRule)) .start
  have hcovers : Survey.Covers (f.barrierMap config.nameRule) before _ :=
    (Survey.covers_start _).append (hrecorded.accepts _ _ _ hvisited)
  refine hcompares.perm nodup_homes_barrierMap hcovers (fun q hq => ?_) ?_
  · exact nodup_of_mem_visited (hvisited ▸ List.mem_append_left _ hq)
  · exact nodup_of_mem_visited (hvisited ▸ List.mem_append_right _ List.mem_cons_self)

theorem survey_eq_orderMismatch : f.survey maxPaths m = .error (.orderMismatch k) ↔
    (f.graph.visitPaths maxPaths (Survey.visit m) .start).2 = .broken (.orderMismatch k) := by
  unfold survey
  rcases f.graph.visitPaths maxPaths (Survey.visit m) .start with ⟨s, _ | reason | _⟩
  · dsimp only
    split <;> exact iff_of_false nofun nofun
  · simp
  · exact iff_of_false nofun nofun

/-- The paths disagree on the order exactly where the analysis compares two sequences that
differ. -/
theorem survey_eq_orderMismatch_iff :
    f.survey config.maxPaths (f.barrierMap config.nameRule) = .error (.orderMismatch k) ↔
      ∃ p sequence reference, f.Compares config p sequence reference ∧ sequence ≠ reference ∧
        p.id = k := by
  obtain ⟨ps, -, hshown⟩ := f.graph.exists_visited
  obtain ⟨-, hrecorded⟩ := hshown _ _ config.maxPaths
    (Survey.visit (f.barrierMap config.nameRule)) .start
  rw [survey_eq_orderMismatch, hrecorded.broken_iff]
  constructor
  · rintro ⟨before, p, after, hvisited, hbreaks⟩
    obtain ⟨hid, sequence, reference, hcompares, hne⟩ := Survey.visit_eq_orderMismatch_iff.1 hbreaks
    exact ⟨p, sequence, reference, ⟨before, after, hvisited, hcompares⟩, hne, hid⟩
  · rintro ⟨p, sequence, reference, ⟨before, after, hvisited, hcompares⟩, hne, hid⟩
    exact ⟨before, p, after, hvisited,
      Survey.visit_eq_orderMismatch_iff.2 ⟨hid, sequence, reference, hcompares, hne⟩⟩

/-! ### Patterns -/

/-- Once all paths were looked at, the cycles tell the pattern of a barrier. -/
theorem pattern_of_mem_barrierRecords {order : List InstrId} {s : Survey} {r : BarrierRecord}
    (h : f.survey maxPaths m = .ok (order, s)) (hr : r ∈ f.barrierRecords m order s) :
    r.pattern = if f.graph.onCycle r.block then .inLoop else .simple := by
  obtain ⟨b, hb, hr⟩ := List.mem_flatMap.1 hr
  obtain ⟨i, hi, rfl⟩ := List.mem_map.1 hr
  obtain ⟨blk, blks, hblocks⟩ := List.exists_cons_of_ne_nil
    (show f.blocks ≠ [] from fun hnil => by rw [blockIds, hnil] at hb; cases hb)
  have he : f.entryId? = some blk.id := by
    rw [entryId?, entry?, hblocks]
    rfl
  exact pattern_of_survey he h hi

/-- The paths are not at fault for a pattern. -/
theorem survey_ne_unsupportedPattern {barrier : InstrId} {block : BlockId} {pattern : Pattern} :
    f.survey maxPaths m ≠ .error (.unsupportedPattern barrier block pattern) := by
  intro h
  obtain ⟨ps, -, -, hends⟩ := f.graph.exists_replay
  rcases survey_eq_error h (hends _ _ _ _ _) with
    ⟨_, _, _, _, _, -, -, hvisit⟩ | ⟨hreason, -⟩ | ⟨hreason, -⟩
  · rcases Survey.visit_eq_some hvisit with ⟨hreason, -⟩ | ⟨hreason, -⟩ <;> cases hreason
  · cases hreason
  · cases hreason

/-- A function is rejected for a pattern if a record has it, and it is not simple. -/
theorem exists_record_of_unsupported {barrier : InstrId} {block : BlockId} {pattern : Pattern}
    (h : f.plan config = .error (.unsupportedPattern barrier block pattern)) :
    ∃ order s r, f.survey config.maxPaths (f.barrierMap config.nameRule) = .ok (order, s) ∧
      r ∈ f.barrierRecords (f.barrierMap config.nameRule) order s ∧ r.pattern ≠ .simple ∧
      r = ⟨barrier, block, pattern⟩ := by
  rcases plan_eq_error h with hdraft | ⟨_, _, hvalue⟩
  · rcases draft_eq_error hdraft with ⟨hreason, -⟩ | ⟨entry, -, hcases⟩
    · cases hreason
    rcases hcases with ⟨hreason, -⟩ | hqueries | hsurvey | ⟨order, s, r, hok, hr, hne, hreason⟩
    · cases hreason
    · rcases Block.findQueries_eq_error hqueries with ⟨hreason, -⟩ | ⟨hreason, -⟩ |
        ⟨_, _, _, _, _, hreason, -⟩ <;> cases hreason
    · exact absurd hsurvey survey_ne_unsupportedPattern
    · cases hreason
      exact ⟨order, s, r, hok, hr, hne, rfl⟩
  · cases hvalue

/-- **Only a loop makes a barrier unsupported.**  Once all paths were looked at, a barrier is in a
loop or simple, so that no function is rejected for any other pattern. The search for a loop comes
to its end, and finds one exactly if a walk leads from the block back to it. Where the analysis
compares the barriers on a path with the order that it knows, both hold each barrier of the function
once, so that they are equally long, and the function is rejected for the order exactly if they
differ. -/
theorem inLoop_of_unsupported (f : Func) (config : Config) :
    (∀ barrier block pattern,
      f.plan config = .error (.unsupportedPattern barrier block pattern) → pattern = .inLoop) ∧
    (∀ order s, f.survey config.maxPaths (f.barrierMap config.nameRule) = .ok (order, s) →
      ∀ r ∈ f.barrierRecords (f.barrierMap config.nameRule) order s,
        r.pattern = if f.graph.onCycle r.block then .inLoop else .simple) ∧
    (∀ b, (∃ n, Graph.Hunt.rounds f.graph b n (.start f.graph b) = .error (f.graph.onCycle b)) ∧
      (f.graph.onCycle b = true ↔ f.graph.OnCycle b)) ∧
    (f.barrierMap config.nameRule).barriers.Perm (f.barriers config.nameRule) ∧
    (∀ p sequence reference, f.Compares config p sequence reference →
      sequence.Perm (f.barrierMap config.nameRule).barriers ∧
      reference.Perm (f.barrierMap config.nameRule).barriers ∧
      sequence.length = reference.length) ∧
    ∀ k, f.survey config.maxPaths (f.barrierMap config.nameRule) = .error (.orderMismatch k) ↔
      ∃ p sequence reference, f.Compares config p sequence reference ∧ sequence ≠ reference ∧
        p.id = k := by
  refine ⟨fun barrier block pattern h => ?_,
    fun order s h r hr => pattern_of_mem_barrierRecords h hr,
    fun b => ⟨⟨_, Graph.Hunt.rounds_eq_answer (Nat.lt_succ_self _)⟩, Graph.onCycle_iff⟩,
    barriers_barrierMap_perm, fun p sequence reference h => ?_,
    fun k => survey_eq_orderMismatch_iff⟩
  · obtain ⟨order, s, r, hok, hr, hne, rfl⟩ := exists_record_of_unsupported h
    have hpattern := pattern_of_mem_barrierRecords hok hr
    split at hpattern
    · exact hpattern
    · exact absurd hpattern hne
  · obtain ⟨hsequence, hreference⟩ := h.perm
    exact ⟨hsequence, hreference, (hsequence.trans hreference.symm).length_eq⟩

/-- A kernel whose threads wait in a loop. Two blocks have the identifier of the loop, so that the
barrier of the second one counts for the first, too. -/
def twins : Func where
  name := "twins"
  convention := .kernel
  returnTy := .void
  params := []
  blocks :=
    [⟨⟨0⟩, "entry",
        [⟨⟨0⟩, some ⟨0⟩, .call "__hip_cg_thread_rank" [], .i32⟩,
          ⟨⟨1⟩, some ⟨1⟩, .call "__hip_cg_group_size" [], .i32⟩,
          ⟨⟨2⟩, some ⟨2⟩, .const (.bool true), .bool⟩],
        .branch ⟨1⟩⟩,
      ⟨⟨1⟩, "loop", [⟨⟨3⟩, none, .call "__hip_cg_sync" [], .void⟩], .condBranch ⟨2⟩ ⟨1⟩ ⟨2⟩⟩,
      ⟨⟨2⟩, "exit", [], .ret none⟩,
      ⟨⟨1⟩, "twin", [⟨⟨4⟩, none, .call "__hip_cg_sync" [], .void⟩], .ret none⟩]
  next := ⟨3, 3, 5⟩

/-- The barrier of the twins is in a loop. The path that leaves the loop runs the barriers of both
blocks, as does the path that goes round. -/
theorem inLoop_of_unsupported_twins :
    ¬ twins.blockIds.Nodup ∧
      (∃ pattern, twins.plan .standard = .error (.unsupportedPattern ⟨3⟩ ⟨1⟩ pattern) ∧
        pattern = .inLoop) ∧
      twins.graph.OnCycle ⟨1⟩ ∧
      ∃ p, p.nodes = [⟨0⟩, ⟨1⟩, ⟨2⟩] ∧ twins.Compares .standard p [⟨3⟩, ⟨4⟩] [⟨3⟩, ⟨4⟩] ∧
        [⟨3⟩, ⟨4⟩].Perm (twins.barrierMap .intrinsics).barriers := by
  obtain ⟨hpattern, -, hcycle, -, hcompares, -⟩ := inLoop_of_unsupported twins .standard
  have hplan : twins.plan .standard = .error (.unsupportedPattern ⟨3⟩ ⟨1⟩ .inLoop) := by cbv
  have hon : twins.graph.onCycle ⟨1⟩ = true := by cbv
  have hvisited : twins.graph.visited 4096 (Survey.visit (twins.barrierMap .intrinsics)) .start =
      [⟨0, [⟨0⟩, ⟨1⟩], .backEdge⟩] ++ [⟨1, [⟨0⟩, ⟨1⟩, ⟨2⟩], .exit⟩] := by cbv
  have hcompare : twins.Compares .standard ⟨1, [⟨0⟩, ⟨1⟩, ⟨2⟩], .exit⟩ [⟨3⟩, ⟨4⟩] [⟨3⟩, ⟨4⟩] :=
    ⟨_, _, hvisited, ⟨by decide, by decide, by decide, by decide⟩⟩
  exact ⟨by decide, ⟨_, hplan, hpattern _ _ _ hplan⟩, (hcycle ⟨1⟩).2.1 hon, _, rfl, hcompare,
    (hcompares _ _ _ hcompare).1⟩

end Func

end BarrierLowering
