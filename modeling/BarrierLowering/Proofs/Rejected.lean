import BarrierLowering.Proofs.Relowered
import BarrierLowering.Proofs.Script
import BarrierLowering.Proofs.StageCount

/-!
# What a rejection names

The reason that the analysis gives against a kernel names a path, a block, a barrier or a value.
What it names is there: the path with that number visits the blocks with barriers in the way that
is said, the block lies on a cycle, and the value is read on a walk across that barrier.

## Main definitions

* `Survey.Compares` — a survey compares what a path runs with the order that it knows.
* `Func.homesOn`, `Func.VisitsAll` — the blocks with barriers on a path.
* `Func.Bears` — a function bears a rejection out.

## Main results

* `Survey.visit_eq_some`, `Func.survey_eq_error` — why a survey is broken off.
* `Func.pattern_of_survey` — after a survey a barrier is in a loop, or simple.
* `Func.bears_of_rejected` — a rejected kernel bears the rejection out.
-/

namespace BarrierLowering

/-! ### The group queries -/

namespace Block

variable {rule : NameRule} {kind : CallKind} {entry : Block} {q : Query} {reason : Rejection}

theorem asks_of_lastQuery? (h : entry.lastQuery? rule kind = some q) :
    ∃ pre i post, entry.instrs = pre ++ i :: post ∧ pre.length = q.pos ∧ i.Asks rule kind := by
  obtain ⟨pre, i, post, hsplit, hlen, -, hv, hkind, -⟩ := lastQuery?_eq_some h
  exact ⟨pre, i, post, hsplit, hlen, hkind, by rw [hv]; rfl⟩

theorem lastQuery?_eq_none_iff :
    entry.lastQuery? rule kind = none ↔ ∀ i ∈ entry.instrs, ¬ i.Asks rule kind := by
  refine ⟨fun hnone i hi hasks => ?_, lastQuery?_eq_none⟩
  obtain ⟨_, _, _, _, -, -, hsome⟩ := exists_lastQuery? ⟨i, hi, hasks⟩
  rw [hnone] at hsome
  cases hsome

/-- Where the group queries are not found, one of them is missing, or a barrier stands in front of
one. -/
theorem findQueries_eq_error (h : entry.findQueries rule = .error reason) :
    (reason = .noRankQuery ∧ ∀ i ∈ entry.instrs, ¬ i.Asks rule .threadRank) ∨
    (reason = .noSizeQuery ∧ ∀ i ∈ entry.instrs, ¬ i.Asks rule .groupSize) ∨
    ∃ is z js q ks, reason = .barrierBeforeQueries z.id ∧
      entry.instrs = is ++ z :: (js ++ q :: ks) ∧ z.kind rule = .barrier ∧
      (q.Asks rule .threadRank ∨ q.Asks rule .groupSize) := by
  unfold findQueries at h
  split at h
  · next hnone =>
    cases h
    exact .inl ⟨rfl, lastQuery?_eq_none_iff.1 hnone⟩
  · next hnone =>
    cases h
    exact .inr (.inl ⟨rfl, lastQuery?_eq_none_iff.1 hnone⟩)
  · next rank size hrank hsize =>
    obtain ⟨pre, q, post, hsplit, hlen, hasks⟩ : ∃ pre q post, entry.instrs = pre ++ q :: post ∧
        pre.length = (if rank.pos < size.pos then size else rank).pos ∧
        (q.Asks rule .threadRank ∨ q.Asks rule .groupSize) := by
      split
      · obtain ⟨pre, q, post, hsplit, hlen, hasks⟩ := asks_of_lastQuery? hsize
        exact ⟨pre, q, post, hsplit, hlen, .inr hasks⟩
      · obtain ⟨pre, q, post, hsplit, hlen, hasks⟩ := asks_of_lastQuery? hrank
        exact ⟨pre, q, post, hsplit, hlen, .inl hasks⟩
    dsimp only at h
    rw [← hlen, hsplit, List.take_left] at h
    split at h
    · next z hfind =>
      cases h
      obtain ⟨hkind, is, js, rfl, -⟩ := List.find?_eq_some_iff_append.1 hfind
      refine .inr (.inr ⟨is, z, js, q, post, rfl, ?_, of_decide_eq_true hkind, hasks⟩)
      rw [hsplit, List.append_assoc, List.cons_append]
    · cases h

end Block

/-! ### Surveys that are broken off -/

namespace Survey

variable {m : BarrierMap} {s s' : Survey} {p : Path BlockId} {ps : List (Path BlockId)}
  {reason : Rejection}

/-- A survey compares the sequence of barriers on a path with the order that it knows. The path
visits enough of the blocks with barriers, and one of the paths before has given the order. -/
structure Compares (m : BarrierMap) (s : Survey) (p : Path BlockId)
    (sequence reference : List InstrId) : Prop where
  visits : p.nodes.filter m.holds ≠ []
  enough : m.length ≤ (p.nodes.filter m.holds).length
  runs : (p.nodes.filter m.holds).flatMap m.barriersOf = sequence
  known : s.order = some reference

/-- A survey is broken off at a path that visits too few of the blocks with barriers, or that runs
the barriers in another order than a path before. -/
theorem visit_eq_some (h : visit m s p = (s', some reason)) :
    (reason = .partialVisit p.id (p.nodes.filter m.holds).length m.length ∧
      (p.nodes.filter m.holds).length < m.length ∧
      (p.finish = .exit ∨ p.nodes.filter m.holds ≠ [])) ∨
    (reason = .orderMismatch p.id ∧ ∃ sequence reference, Compares m s p sequence reference ∧
      sequence ≠ reference) := by
  unfold visit at h
  simp only [order_count, Bool.and_eq_true, decide_eq_true_eq, Bool.or_eq_true, Bool.not_eq_true',
    List.isEmpty_iff, List.isEmpty_eq_false_iff, Path.isExit] at h
  split at h
  · next hpartial =>
    cases h
    exact .inl ⟨rfl, hpartial⟩
  · next hall =>
    split at h
    · cases h
    · next hne =>
      have hlen : m.length ≤ (p.nodes.filter m.holds).length := by
        by_contra hlt
        exact hall ⟨Nat.lt_of_not_le hlt, Or.inr hne⟩
      split at h
      · cases h
      · next first hfirst =>
        by_cases heq : (p.nodes.filter m.holds).flatMap m.barriersOf = first
        · rw [if_pos heq] at h
          cases h
        · rw [if_neg heq] at h
          cases h
          exact .inr ⟨rfl, _, first, ⟨hne, hlen, rfl, hfirst⟩, heq⟩

end Survey

/-! ### The blocks with barriers on a path -/

namespace Func

variable {f : Func} {rule : NameRule} {config : Config} {p q : Path BlockId}
  {ps : List (Path BlockId)} {b e : BlockId} {order : List InstrId} {s : Survey} {i : InstrId}
  {maxPaths : Nat} {reason : Rejection}

/-- The blocks with barriers on a path, in the order in which it visits them. -/
def homesOn (rule : NameRule) (f : Func) (p : Path BlockId) : List BlockId :=
  p.nodes.filter (· ∈ f.barrierHomes rule)

/-- A path visits all blocks with barriers. -/
def VisitsAll (rule : NameRule) (f : Func) (p : Path BlockId) : Prop :=
  ∀ b ∈ f.barrierHomes rule, b ∈ p.nodes

theorem length_barrierMap (hids : f.blockIds.Nodup) :
    (f.barrierMap rule).length = (f.barrierHomes rule).length := by
  rw [barrierMap_eq hids, List.length_map]

theorem filter_holds (hids : f.blockIds.Nodup) (p : Path BlockId) :
    p.nodes.filter (f.barrierMap rule).holds = f.homesOn rule p := by
  refine List.filter_congr fun b _ => ?_
  rw [holds_barrierMap hids]
  exact decide_eq_decide.2 (mem_barrierHomes_iff hids).symm

/-- A path that visits no block twice visits as many blocks with barriers as there are on it. -/
theorem length_homesOn (hids : f.blockIds.Nodup) (hnd : p.nodes.Nodup) :
    (f.homesOn rule p).length = ((f.barrierHomes rule).filter (· ∈ p.nodes)).length := by
  refine List.Perm.length_eq ((List.perm_ext_iff_of_nodup (hnd.filter _)
    ((nodup_barrierHomes hids).filter _)).2 fun b => ?_)
  simp only [List.mem_filter, decide_eq_true_iff]
  exact and_comm

theorem visitsAll_of_le (hnd : p.nodes.Nodup)
    (hle : (f.barrierHomes rule).length ≤ (f.homesOn rule p).length) : f.VisitsAll rule p := by
  have hsub : f.homesOn rule p ⊆ f.barrierHomes rule := fun b hb =>
    of_decide_eq_true (List.mem_filter.1 hb).2
  have hperm := (List.subperm_of_subset (hnd.filter _) hsub).perm_of_length_le hle
  exact fun b hb => (List.mem_filter.1 (hperm.mem_iff.2 hb)).1

/-- The paths of a function visit no block twice. -/
theorem nodup_of_courses (he : f.entryId? = some e)
    (hcourses : ps.map Path.course = f.graph.completions [] e) (hp : p ∈ ps) : p.nodes.Nodup :=
  (Graph.isWalk_of_mem_completions
    (show f.graph.IsWalk ([] ++ [e]) from Graph.isWalk_singleton.2 he) List.nodup_nil
    (hcourses ▸ List.mem_map_of_mem hp)).2

/-! ### Why a survey fails -/

/-- A survey fails at a path that is not as those before it, because of the limit, or because no
path visits a block with barriers. -/
theorem survey_eq_error {m : BarrierMap} (h : f.survey maxPaths m = .error reason)
    (hends : (Survey.visit m).Ends maxPaths Survey.start ps
      (f.graph.visitPaths maxPaths (Survey.visit m) Survey.start)) :
    (∃ qs p rest s s', ps = qs ++ p :: rest ∧ Survey.Covers m qs s ∧
      Survey.visit m s p = (s', some reason)) ∨
    (reason = .tooManyPaths maxPaths ∧ maxPaths < ps.length) ∨
    (reason = .noBarrierPath ∧ ∃ s, Survey.Covers m ps s ∧ s.order = none) := by
  have hcovers : ∀ {qs s}, (Survey.visit m).Accepts Survey.start qs s → Survey.Covers m qs s :=
    fun haccepts => by simpa using (Survey.covers_start m).append haccepts
  unfold survey at h
  generalize f.graph.visitPaths maxPaths (Survey.visit m) Survey.start = ended at h hends
  cases hends with
  | complete haccepts =>
    dsimp only at h
    split at h
    · next hnone =>
      cases h
      exact .inr (.inr ⟨rfl, _, hcovers haccepts, hnone⟩)
    · cases h
  | broken hps haccepts hvisit =>
    cases h
    exact .inl ⟨_, _, _, _, _, hps, hcovers haccepts, hvisit⟩
  | overLimit _ _ hlt =>
    cases h
    exact .inr (.inl ⟨rfl, hlt⟩)

/-- After a survey of all paths a barrier is in a loop, or simple. -/
theorem pattern_of_survey {m : BarrierMap} (he : f.entryId? = some e)
    (h : f.survey maxPaths m = .ok (order, s)) (hi : i ∈ m.barriersOf b) :
    f.pattern order s b i = if f.graph.onCycle b then .inLoop else .simple := by
  obtain ⟨horder, ps, haccepts, hcourses⟩ := exists_accepts_of_survey he h
  have hcovers : Survey.Covers m ps s := by
    simpa using (Survey.covers_start _).append haccepts
  have hb : b ∈ m.homes := BarrierMap.holds_iff.1 (BarrierMap.holds_of_mem_barriersOf hi)
  -- a path that comes to a block with barriers visits all of them
  have hperm : ∀ p ∈ ps, p.nodes.filter m.holds ≠ [] → (p.nodes.filter m.holds).Perm m.homes :=
    fun p hp hne => BarrierMap.perm_homes ((nodup_of_courses he hcourses hp).filter _)
      (fun c hc => (List.mem_filter.1 hc).2) (hcovers.agree p hp hne).1
  -- the paths agree with each other, so that the survey is fair
  have hagrees : ∀ p ∈ ps, Survey.Agrees m order p := by
    refine fun p hp => ⟨fun hne => ?_, fun hfin hnil => ?_⟩
    · obtain ⟨hle, hsame⟩ := hcovers.agree p hp hne
      refine ⟨fun c hc => ?_, hle, (Option.some.inj (horder.symm.trans hsame)).symm⟩
      exact (List.mem_filter.1 ((hperm p hp hne).mem_iff.2 (BarrierMap.holds_iff.1 hc))).1
    · have hle := hcovers.exits p hp hfin
      rw [hnil, ← List.length_map Prod.fst] at hle
      exact absurd (List.length_pos_of_mem hb) (Nat.not_lt.2 hle)
  obtain ⟨s', haccepts', hfair⟩ := (Survey.fair_start _ _).accepts hagrees
  obtain rfl : s' = s := haccepts'.eq_watch.trans haccepts.eq_watch.symm
  have hmem : i ∈ order := by
    obtain ⟨p, hp, hne, rfl⟩ := hcovers.given order horder
    exact List.mem_flatMap.2 ⟨b, (hperm p hp hne).mem_iff.2 hb, hi⟩
  rw [pattern, if_neg (Nat.not_lt.2 (hfair.visits b (BarrierMap.holds_iff.2 hb))),
    if_neg (not_not.2 hmem)]

/-! ### Why a kernel is rejected -/

/-- A draft fails because of the entry, because of the paths, or because of the control flow around
a barrier. -/
theorem draft_eq_error (h : f.draft config = .error reason) :
    (reason = .noBlocks ∧ f.entry? = none) ∨ ∃ entry, f.entry? = some entry ∧
      ((reason = .noBarriers ∧ f.barrierMap config.nameRule = []) ∨
      entry.findQueries config.nameRule = .error reason ∨
      f.survey config.maxPaths (f.barrierMap config.nameRule) = .error reason ∨
      ∃ order s r, f.survey config.maxPaths (f.barrierMap config.nameRule) = .ok (order, s) ∧
        r ∈ f.barrierRecords (f.barrierMap config.nameRule) order s ∧ r.pattern ≠ .simple ∧
        reason = .unsupportedPattern r.instr r.block r.pattern) := by
  unfold draft at h
  cases hentry : f.entry? with
  | none =>
    rw [hentry] at h
    cases h
    exact .inl ⟨rfl, rfl⟩
  | some entry =>
    refine .inr ⟨entry, rfl, ?_⟩
    rw [hentry] at h
    dsimp only at h
    split at h
    · next hempty =>
      cases h
      exact .inl ⟨rfl, List.isEmpty_iff.1 hempty⟩
    · cases hqueries : entry.findQueries config.nameRule with
      | error reason' =>
        rw [hqueries] at h
        cases h
        exact .inr (.inl rfl)
      | ok queries =>
        rw [hqueries] at h
        cases hsurvey : f.survey config.maxPaths (f.barrierMap config.nameRule) with
        | error reason' =>
          rw [hsurvey] at h
          cases h
          exact .inr (.inr (.inl rfl))
        | ok found =>
          obtain ⟨order, s⟩ := found
          rw [hsurvey] at h
          simp only [bind, Except.bind] at h
          split at h
          · next bad hfind =>
            cases h
            refine .inr (.inr (.inr ⟨order, s, bad, rfl, List.mem_of_find?_eq_some hfind, ?_, rfl⟩))
            simpa using List.find?_some hfind
          · cases h

/-- A rejection is that of the draft, or it is because of a value. -/
theorem plan_eq_error (h : f.plan config = .error reason) :
    f.draft config = .error reason ∨
      ∃ value barrier, reason = .liveAcrossBarrier value barrier := by
  unfold Func.plan at h
  cases hdraft : f.draft config with
  | error reason' =>
    rw [hdraft] at h
    exact .inl h
  | ok draft =>
    rw [hdraft] at h
    simp only [bind, Except.bind] at h
    split at h
    · next value barrier _ =>
      cases h
      exact .inr ⟨value, barrier, rfl⟩
    · cases h

/-- What a rejection says about a function. The paths are those of the list of all paths. -/
def Bears (f : Func) (config : Config) (listed : List (Path BlockId)) : Rejection → Prop
  | .noBlocks => f.blocks = []
  | .noBarriers => f.barriers config.nameRule = []
  | .noRankQuery => ∃ entry, f.entry? = some entry ∧
      ∀ i ∈ entry.instrs, ¬ i.Asks config.nameRule .threadRank
  | .noSizeQuery => ∃ entry, f.entry? = some entry ∧
      ∀ i ∈ entry.instrs, ¬ i.Asks config.nameRule .groupSize
  | .barrierBeforeQueries barrier => ∃ entry is z js q ks, f.entry? = some entry ∧
      entry.instrs = is ++ z :: (js ++ q :: ks) ∧ z.id = barrier ∧
      z.kind config.nameRule = .barrier ∧
      (q.Asks config.nameRule .threadRank ∨ q.Asks config.nameRule .groupSize)
  | .partialVisit path visited total => ∃ p ∈ listed, p.id = path ∧
      ((f.barrierHomes config.nameRule).filter (· ∈ p.nodes)).length = visited ∧
      (f.barrierHomes config.nameRule).length = total ∧ visited < total ∧
      (p.finish = .exit ∨ 0 < visited)
  | .orderMismatch path => ∃ p ∈ listed, p.id = path ∧ f.VisitsAll config.nameRule p ∧
      ∃ q ∈ listed, f.VisitsAll config.nameRule q ∧
        f.homesOn config.nameRule p ≠ f.homesOn config.nameRule q
  | .noBarrierPath => ∀ w b, f.graph.IsWalk (w ++ [b]) → b ∉ f.barrierHomes config.nameRule
  | .tooManyPaths limit => limit = config.maxPaths ∧ limit < listed.length
  | .unsupportedPattern barrier block pattern => f.graph.OnCycle block ∧ pattern = .inLoop ∧
      ∃ i ∈ f.instrsOf block, i.id = barrier ∧ i.kind config.nameRule = .barrier
  | .liveAcrossBarrier value barrier => ∃ as d bs z cs,
      f.ReadAfter value (as ++ d :: (bs ++ z :: cs)) ∧ d.result = some value ∧ z.id = barrier ∧
      z.kind config.nameRule = .barrier ∧ ∀ i ∈ cs, i.result ≠ some value

/-- A function bears out why its survey fails. -/
theorem bears_of_survey {listed : List (Path BlockId)} (hids : f.blockIds.Nodup)
    (he : f.entryId? = some e) (hcourses : ps.map Path.course = f.graph.completions [] e)
    (hperm : listed.Perm ps)
    (hends : (Survey.visit (f.barrierMap config.nameRule)).Ends config.maxPaths Survey.start ps
      (f.graph.visitPaths config.maxPaths (Survey.visit (f.barrierMap config.nameRule))
        Survey.start))
    (h : f.survey config.maxPaths (f.barrierMap config.nameRule) = .error reason) :
    f.Bears config listed reason := by
  have hnd : ∀ p ∈ ps, p.nodes.Nodup := fun p => nodup_of_courses he hcourses
  have hall : ∀ p ∈ ps, (f.barrierMap config.nameRule).length ≤
      (p.nodes.filter (f.barrierMap config.nameRule).holds).length →
      f.VisitsAll config.nameRule p := fun p hp hle =>
    visitsAll_of_le (hnd p hp) (by rwa [filter_holds hids, length_barrierMap hids] at hle)
  rcases survey_eq_error h hends with ⟨qs, p, rest, s, s', rfl, hcovers, hvisit⟩ |
    ⟨rfl, hlt⟩ | ⟨rfl, s, hcovers, hnone⟩
  · have hp : p ∈ qs ++ p :: rest := List.mem_append_right _ List.mem_cons_self
    rcases Survey.visit_eq_some hvisit with
      ⟨rfl, hlt, hend⟩ | ⟨rfl, sequence, first, hcompares, hne⟩
    · -- the path visits too few blocks
      rw [filter_holds hids, length_barrierMap hids] at hlt ⊢
      rw [filter_holds hids] at hend
      refine ⟨p, hperm.mem_iff.2 hp, rfl, (length_homesOn hids (hnd p hp)).symm, rfl, hlt, ?_⟩
      exact hend.imp_right List.length_pos_iff.2
    · -- the path that gave the order visits the blocks in another one
      obtain ⟨q, hq, hvisits, rfl⟩ := hcovers.given first hcompares.known
      have hq' : q ∈ qs ++ p :: rest := List.mem_append_left _ hq
      refine ⟨p, hperm.mem_iff.2 hp, rfl, hall p hp hcompares.enough, q, hperm.mem_iff.2 hq',
        hall q hq' (hcovers.agree q hq hvisits).1, fun heq => hne ?_⟩
      rw [← hcompares.runs, filter_holds hids, filter_holds hids, heq]
  · exact ⟨rfl, hperm.length_eq ▸ hlt⟩
  · -- a walk to a block with barriers would be on some path
    intro w b hw hb
    obtain ⟨w', hw', hnd', -⟩ := hw.exists_nodup (p := fun _ => false) fun _ hfalse =>
      absurd hfalse Bool.false_ne_true
    obtain ⟨c, hc, hpre, -⟩ := Graph.exists_completion he hw' hnd'
    rw [← hcourses] at hc
    obtain ⟨p, hp, rfl⟩ := List.mem_map.1 hc
    have hmem : b ∈ p.nodes.filter (f.barrierMap config.nameRule).holds := by
      rw [filter_holds hids]
      refine List.mem_filter.2 ⟨hpre.subset ?_, decide_eq_true hb⟩
      exact List.mem_append_right _ (List.mem_singleton.2 rfl)
    have hsome := (hcovers.agree p hp (List.ne_nil_of_mem hmem)).2
    rw [hnone] at hsome
    cases hsome

/-- A function bears out why the draft of it fails. -/
theorem bears_of_draft {listed : List (Path BlockId)} (hids : f.blockIds.Nodup)
    (hsurvey : ∀ e, f.entryId? = some e →
      f.survey config.maxPaths (f.barrierMap config.nameRule) = .error reason →
        f.Bears config listed reason)
    (h : f.draft config = .error reason) : f.Bears config listed reason := by
  rcases draft_eq_error h with ⟨rfl, hnone⟩ | ⟨entry, hentry, hcases⟩
  · exact List.head?_eq_none_iff.1 hnone
  have he : f.entryId? = some entry.id := by rw [entryId?, hentry, Option.map_some]
  rcases hcases with ⟨rfl, hnil⟩ | hqueries | hfails | ⟨order, s, r, hok, hr, hne, rfl⟩
  · exact (barrierMap_eq_nil_iff hids).1 hnil
  · rcases Block.findQueries_eq_error hqueries with ⟨rfl, hnone⟩ | ⟨rfl, hnone⟩ |
      ⟨is, z, js, q, ks, rfl, hsplit, hkind, hasks⟩
    · exact ⟨entry, hentry, hnone⟩
    · exact ⟨entry, hentry, hnone⟩
    · exact ⟨entry, is, z, js, q, ks, hentry, hsplit, rfl, hkind, hasks⟩
  · exact hsurvey entry.id he hfails
  · obtain ⟨b, -, hr⟩ := List.mem_flatMap.1 hr
    obtain ⟨i, hi, rfl⟩ := List.mem_map.1 hr
    dsimp only at hne ⊢
    rw [pattern_of_survey he hok hi] at hne ⊢
    rw [barriersOf_barrierMap hids] at hi
    obtain ⟨z, hz, hid⟩ := List.mem_map.1 hi
    obtain ⟨hz, hkind⟩ := List.mem_filter.1 hz
    cases hcycle : f.graph.onCycle b with
    | true => exact ⟨Graph.onCycle_iff.1 hcycle, rfl, z, hz, hid, of_decide_eq_true hkind⟩
    | false =>
      rw [hcycle] at hne
      exact absurd rfl hne

/-- A value for which a kernel is rejected is read on a walk behind the barrier that is named. -/
theorem bears_of_crossing {listed : List (Path BlockId)} {value : ValueId} {barrier : InstrId}
    (hf : f.WellFormed) (hids : (f.instrs.map (·.id)).Nodup)
    (h : f.plan config = .error (.liveAcrossBarrier value barrier)) :
    f.Bears config listed (.liveAcrossBarrier value barrier) := by
  obtain ⟨plan, hdraft, hcross⟩ := plan_eq_liveAcrossBarrier_iff.1 h
  have hopens := opens_of_draft hf.blocks_nodup hids hdraft
  have hord : f.InOrder config.nameRule plan.barriers := inOrder_of_draft hf.blocks_nodup hdraft
  obtain ⟨c, hbarrier⟩ := exists_crossing hf hids hopens hcross
  rw [c.barrier_eq hids hopens hord] at hbarrier
  refine ⟨c.before, c.definition, c.between, c.barrier, c.after, c.reached ▸ c.reads, c.defines,
    Option.some.inj hbarrier, ?_, c.result_ne hf.results_nodup hids hopens hord⟩
  -- the barrier on the walk is the one of that name in the function
  obtain ⟨z, hz, hid, hkind⟩ := hord.exists_barrier c.barrier_mem
  rwa [List.inj_on_of_nodup_map hids hz c.barrier_mem_instrs hid] at hkind

/-- **A rejected kernel bears the rejection out.**  The list of all paths does not depend on its
limit, if that is sufficient, and a path has its place in the list as its number. What the
rejection says about a path, a block, a barrier or a value is true. -/
theorem bears_of_rejected (f : Func) (config : Config) (reason : Rejection) (hf : f.defects = [])
    (hids : (f.instrs.map (·.id)).Nodup) (h : f.plan config = .error reason) :
    ∃ listed, (∀ limit, listed.length ≤ limit → f.graph.enumerate limit = some listed) ∧
      listed.map Path.id = List.range listed.length ∧ f.Bears config listed reason := by
  have hwf := defects_eq_nil_iff.1 hf
  obtain ⟨ps, listed, hcourses, hperm, hnumbers, hlisted, hends⟩ := f.graph.exists_listed
  refine ⟨listed, hlisted, hnumbers, ?_⟩
  rcases plan_eq_error h with hdraft | ⟨value, barrier, rfl⟩
  · refine bears_of_draft hwf.blocks_nodup (fun e he => ?_) hdraft
    rw [Graph.map_course_routes he] at hcourses
    exact bears_of_survey hwf.blocks_nodup he hcourses hperm (hends _ _ _ _ _)
  · exact bears_of_crossing hwf hids h

/-- The carrying kernel has a walk on which the sum is computed, the threads wait, and the sum is
read. -/
theorem bears_of_rejected_carrying :
    carrying.defects = [] ∧ (carrying.instrs.map (·.id)).Nodup ∧
      carrying.plan .standard = .error (.liveAcrossBarrier ⟨2⟩ ⟨3⟩) ∧ ∃ as d bs z cs,
        carrying.ReadAfter ⟨2⟩ (as ++ d :: (bs ++ z :: cs)) ∧ d.result = some ⟨2⟩ ∧ z.id = ⟨3⟩ ∧
        z.kind .intrinsics = .barrier ∧ ∀ i ∈ cs, i.result ≠ some ⟨2⟩ := by
  have hf : carrying.defects = [] := by cbv
  have hids : (carrying.instrs.map (·.id)).Nodup := by decide
  have hplan : carrying.plan .standard = .error (.liveAcrossBarrier ⟨2⟩ ⟨3⟩) := by cbv
  obtain ⟨listed, -, -, hbears⟩ := bears_of_rejected carrying .standard _ hf hids hplan
  exact ⟨hf, hids, hplan, hbears⟩

end Func

end BarrierLowering
