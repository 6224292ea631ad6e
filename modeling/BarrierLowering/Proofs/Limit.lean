import BarrierLowering.Proofs.Events
import BarrierLowering.Proofs.Script

/-!
# Paths and their limit

A visit counts the paths that it has found, not those that it has shown. It comes to know of too
many paths when it meets a branch, which may be before its visitor is shown the first path or after
its visitor has broken off. Yet the limit does what it should: a visitor that never breaks off is
stopped by it exactly where there are more paths than the limit, and a larger limit does not take
away any path that a smaller one has let through.

## Main definitions

* `Visitor.recording` — a visitor that remembers what it was shown.
* `Visitor.Recorded` — what a visit has done with the paths that it was shown.
* `Graph.visited` — the paths that a visit shows.

## Main results

* `finish_recording` — a visitor does not notice that it is recorded.
* `Visitor.Ends.recorded`, `Graph.exists_visited` — a visit shows the first ones of one list of
  paths.
* `play_cases_of_le` — one script under two limits.
* `Graph.visitPaths_limit` — when a visit is over its limit, and two visits under two limits.
-/

namespace BarrierLowering

variable {ν σ β : Type}

/-! ### Recording a visit -/

/-- The visitor remembers the paths it was shown, in order, besides what it does anyway. -/
def Visitor.recording (visitor : Visitor ν σ β) : Visitor ν (σ × List (Path ν)) β :=
  fun (s, seen) p => (((visitor s p).1, seen ++ [p]), (visitor s p).2)

section Scripts

variable {limit limit' next : Nat} {visitor : Visitor ν σ β} {script : List (Action ν)} {s s' : σ}
  {seen : List (Path ν)} {p : Path ν} {reason : β}

theorem Visitor.recording_of_none (h : visitor s p = (s', none)) :
    visitor.recording (s, seen) p = ((s', seen ++ [p]), none) := by
  rw [recording, h]

theorem Visitor.recording_of_some (h : visitor s p = (s', some reason)) :
    visitor.recording (s, seen) p = ((s', seen ++ [p]), some reason) := by
  rw [recording, h]

/-- A visitor does not notice that it is recorded. -/
theorem finish_recording :
    (finish (play limit visitor.recording script ⟨next, (s, seen)⟩)).map Prod.fst id =
      finish (play limit visitor script ⟨next, s⟩) := by
  induction script generalizing next s seen with
  | nil => rfl
  | cons a script ih =>
    cases a with
    | number count =>
      rw [play_number, play_number]
      split
      · rfl
      · exact ih
    | present p =>
      rcases hvisit : visitor s p with ⟨s', _ | reason⟩
      · rw [play_present_of_none hvisit, play_present_of_none (Visitor.recording_of_none hvisit)]
        exact ih
      · rw [play_present_of_some hvisit, play_present_of_some (Visitor.recording_of_some hvisit)]
        rfl

/-- What was shown before a script is remembered after it. -/
theorem prefix_recording :
    seen <+: (finish (play limit visitor.recording script ⟨next, (s, seen)⟩)).1.2 := by
  induction script generalizing next s seen with
  | nil => exact List.prefix_rfl
  | cons a script ih =>
    cases a with
    | number count =>
      rw [play_number]
      split
      · exact List.prefix_rfl
      · exact ih
    | present p =>
      rcases hvisit : visitor s p with ⟨s', _ | reason⟩
      · rw [play_present_of_none (Visitor.recording_of_none hvisit)]
        exact (List.prefix_append seen [p]).trans ih
      · rw [play_present_of_some (Visitor.recording_of_some hvisit)]
        exact List.prefix_append seen [p]

/-- What was accepted while it was recorded is accepted, and remembered. -/
theorem Visitor.Accepts.of_recording {ps seen' : List (Path ν)}
    (h : visitor.recording.Accepts (s, seen) ps (s', seen')) :
    visitor.Accepts s ps s' ∧ seen' = seen ++ ps := by
  induction ps generalizing s seen with
  | nil =>
    cases h
    exact ⟨.nil _, (List.append_nil _).symm⟩
  | cons p ps ih =>
    obtain ⟨⟨s₁, seen₁⟩, hvisit, hrest⟩ := Visitor.accepts_cons_iff.1 h
    obtain ⟨⟨rfl, rfl⟩, hnone⟩ : ((visitor s p).1 = s₁ ∧ seen ++ [p] = seen₁) ∧
        (visitor s p).2 = none := by simpa [Visitor.recording] using hvisit
    obtain ⟨haccepts, rfl⟩ := ih hrest
    exact ⟨.cons (Prod.ext rfl hnone) haccepts, List.append_cons .. ▸ rfl⟩

/-- What was accepted was accepted up to each path, and at that. -/
theorem Visitor.Accepts.of_split {ps qs : List (Path ν)}
    (h : visitor.Accepts s (ps ++ p :: qs) s') :
    visitor.Accepts s ps (visitor.watch s ps) ∧ (visitor (visitor.watch s ps) p).2 = none := by
  obtain ⟨s₁, hps, hrest⟩ := Visitor.accepts_append_iff.1 h
  obtain ⟨s₂, hp, -⟩ := Visitor.accepts_cons_iff.1 hrest
  rw [← hps.eq_watch]
  exact ⟨hps, by rw [hp]⟩

/-- What a visit that was shown some paths has done with them: it went on from each of them but the
last, and was broken off if the visitor did so at one of them. -/
structure Visitor.Recorded (visitor : Visitor ν σ β) (s : σ) (seen : List (Path ν))
    (fate : VisitEnd β) : Prop where
  accepts : ∀ before p after, seen = before ++ p :: after →
    visitor.Accepts s before (visitor.watch s before)
  broken_iff : ∀ reason, fate = .broken reason ↔ ∃ before p after, seen = before ++ p :: after ∧
    (visitor (visitor.watch s before) p).2 = some reason

/-- A visit that was not broken off has accepted all paths. -/
theorem Visitor.Accepts.recorded {fate : VisitEnd β} (h : visitor.Accepts s seen s')
    (hfate : ∀ reason, fate ≠ .broken reason) : visitor.Recorded s seen fate := by
  refine ⟨fun before p after hseen => (hseen ▸ h).of_split.1,
    fun reason => iff_of_false (hfate reason) ?_⟩
  rintro ⟨before, p, after, rfl, hbreaks⟩
  rw [h.of_split.2] at hbreaks
  cases hbreaks

/-- A visit that was broken off at a path has accepted the paths before. -/
theorem Visitor.Accepts.recorded_snoc (h : visitor.Accepts s seen s')
    (hbreaks : (visitor s' p).2 = some reason) :
    visitor.Recorded s (seen ++ [p]) (.broken reason) := by
  have hstate := h.eq_watch
  -- each path is the last one, or was accepted
  have hcases : ∀ before q after, seen ++ [p] = before ++ q :: after →
      before = seen ∧ q = p ∨ visitor.Accepts s before (visitor.watch s before) ∧
        (visitor (visitor.watch s before) q).2 = none := by
    intro before q after hsplit
    rcases append_eq_append_cons hsplit with ⟨mid, rfl, hmid⟩ | ⟨after', rfl, -⟩
    · obtain ⟨rfl, hq, -⟩ : mid = [] ∧ q = p ∧ after = [] := by
        simpa using List.singleton_eq_append_iff.1 hmid
      exact .inl ⟨List.append_nil _, hq⟩
    · exact .inr h.of_split
  refine ⟨fun before q after hsplit => ?_, fun reason' => ⟨fun hfate => ?_, ?_⟩⟩
  · rcases hcases before q after hsplit with ⟨rfl, -⟩ | ⟨hbefore, -⟩
    · exact hstate ▸ h
    · exact hbefore
  · cases hfate
    exact ⟨seen, p, [], rfl, hstate ▸ hbreaks⟩
  · rintro ⟨before, q, after, hsplit, hq⟩
    rcases hcases before q after hsplit with ⟨rfl, rfl⟩ | ⟨-, hnone⟩
    · rw [← hstate, hbreaks] at hq
      rw [Option.some.inj hq]
    · rw [hnone] at hq
      cases hq

/-- A recorded visit remembers the first ones of the paths, and what it has done with them. -/
theorem Visitor.Ends.recorded {ps : List (Path ν)} {ended : (σ × List (Path ν)) × VisitEnd β}
    (h : visitor.recording.Ends limit (s, []) ps ended) :
    ended.1.2 <+: ps ∧ visitor.Recorded s ended.1.2 ended.2 := by
  cases h with
  | complete haccepts =>
    obtain ⟨haccepts, rfl⟩ := haccepts.of_recording
    exact ⟨List.prefix_rfl, haccepts.recorded nofun⟩
  | @overLimit seen rest s' hps haccepts _ =>
    obtain ⟨haccepts, hseen⟩ := haccepts.of_recording
    rw [List.nil_append] at hseen
    rw [hseen, hps]
    exact ⟨List.prefix_append seen rest, haccepts.recorded nofun⟩
  | @broken seen rest p s₁ s' reason hps haccepts hvisit =>
    obtain ⟨haccepts, hseen⟩ := haccepts.of_recording
    have hlast : s'.2 = seen ++ [p] := by
      rw [List.nil_append] at hseen
      rw [← hseen]
      exact (congrArg (·.1.2) hvisit).symm
    rw [hlast, hps, List.append_cons seen p rest]
    exact ⟨List.prefix_append _ _, haccepts.recorded_snoc (congrArg Prod.snd hvisit)⟩

/-! ### One script under two limits -/

/-- Under two limits a script is followed in the same way, up to where the smaller one stops it. The
larger one has some of the script followed from there. -/
theorem play_cases_of_le (hle : limit ≤ limit') (visitor : Visitor ν σ β)
    (script : List (Action ν)) (next : Nat) (s : σ) :
    play limit visitor script ⟨next, s⟩ = play limit' visitor script ⟨next, s⟩ ∨
      ∃ script' next' s', play limit visitor script ⟨next, s⟩ = .error (s', .overLimit) ∧
        play limit' visitor script ⟨next, s⟩ = play limit' visitor script' ⟨next', s'⟩ := by
  induction script generalizing next s with
  | nil => exact .inl rfl
  | cons a script ih =>
    cases a with
    | number count =>
      rw [play_number]
      split
      · exact .inr ⟨_, next, s, rfl, rfl⟩
      · rw [play_number, if_neg (by omega)]
        exact ih _ s
    | present p =>
      rcases hvisit : visitor s p with ⟨s', _ | reason⟩
      · rw [play_present_of_none hvisit, play_present_of_none hvisit]
        exact ih next s'
      · rw [play_present_of_some hvisit, play_present_of_some hvisit]
        exact .inl rfl

/-- A larger limit lets through what a smaller one does, and possibly more. -/
theorem visited_play_mono (hle : limit ≤ limit') :
    (finish (play limit visitor.recording script ⟨next, (s, seen)⟩)).1.2 <+:
      (finish (play limit' visitor.recording script ⟨next, (s, seen)⟩)).1.2 := by
  rcases play_cases_of_le hle visitor.recording script next (s, seen) with
    heq | ⟨script', next', ⟨s', seen'⟩, hstopped, hrest⟩
  · rw [heq]
  · rw [hstopped, hrest]
    exact prefix_recording

/-- A limit that has stopped nothing might as well be larger. -/
theorem play_eq_of_le (hle : limit ≤ limit')
    (h : (finish (play limit visitor script ⟨next, s⟩)).2 ≠ .overLimit) :
    play limit visitor script ⟨next, s⟩ = play limit' visitor script ⟨next, s⟩ := by
  refine (play_cases_of_le hle visitor script next s).resolve_right
    fun ⟨_, _, _, hstopped, _⟩ => h ?_
  rw [hstopped]
  rfl

/-- Where the visitor never breaks off, a script is stopped exactly if it numbers too many
branches. -/
theorem finish_eq_overLimit_iff (hpatient : visitor.Patient) (hle : next ≤ limit) :
    (finish (play limit visitor script ⟨next, s⟩)).2 = .overLimit ↔
      limit < next + numbered script := by
  induction script generalizing next s with
  | nil => exact iff_of_false nofun (Nat.not_lt.2 hle)
  | cons a script ih =>
    cases a with
    | number count =>
      rw [play_number, numbered, ← Nat.add_assoc]
      split
      · next hlt => exact iff_of_true rfl (by omega)
      · next hlt => exact ih (Nat.not_lt.1 hlt)
    | present p =>
      have hvisit : visitor s p = ((visitor s p).1, none) := Prod.ext rfl (hpatient s p)
      rw [play_present_of_none hvisit]
      exact ih hle

end Scripts

/-! ### Whole visits -/

namespace Graph

variable [DecidableEq ν] {g : Graph ν} {limit limit' : Nat} {visitor : Visitor ν σ β} {s : σ}

/-- The paths that a visit shows, in order. If the visitor breaks off, the last of them is the one
at which it does. -/
def visited (g : Graph ν) (limit : Nat) (visitor : Visitor ν σ β) (s : σ) : List (Path ν) :=
  (g.visitPaths limit visitor.recording (s, [])).1.2

/-- A visit ends in the same way when it is recorded. -/
theorem map_visitPaths_recording :
    (g.visitPaths limit visitor.recording (s, [])).map Prod.fst id =
      g.visitPaths limit visitor s := by
  obtain ⟨script, -, -, -, hvisit⟩ := g.exists_script
  rw [hvisit, hvisit]
  exact finish_recording

/-- A visitor that never breaks off is stopped exactly if there are more paths than the limit. -/
theorem visitPaths_eq_overLimit_iff (hpatient : visitor.Patient) :
    (g.visitPaths limit visitor s).2 = .overLimit ↔ limit < g.routes.length := by
  obtain ⟨script, -, -, hnumbered, hvisit⟩ := g.exists_script
  rw [hvisit, finish_eq_overLimit_iff hpatient (Nat.zero_le limit), hnumbered, Nat.zero_add]

/-- There is no list of all paths exactly if there are more paths than the limit. -/
theorem enumerate_eq_none_iff : g.enumerate limit = none ↔ limit < g.routes.length := by
  have hover : (g.visitPaths limit .collect []).2 = .overLimit ↔ limit < g.routes.length :=
    visitPaths_eq_overLimit_iff Visitor.patient_collect
  rw [← hover, enumerate_eq]
  rcases g.visitPaths limit .collect [] with ⟨paths, _ | reason | _⟩
  · exact iff_of_false nofun nofun
  · exact reason.elim
  · exact iff_of_true rfl rfl

theorem visited_mono (hle : limit ≤ limit') :
    g.visited limit visitor s <+: g.visited limit' visitor s := by
  obtain ⟨script, -, -, -, hvisit⟩ := g.exists_script
  rw [visited, visited, hvisit, hvisit]
  exact visited_play_mono hle

/-- A visit that was not stopped by its limit goes on in the same way under a larger one. -/
theorem visitPaths_eq_of_le (hle : limit ≤ limit')
    (h : (g.visitPaths limit visitor s).2 ≠ .overLimit) :
    g.visitPaths limit visitor s = g.visitPaths limit' visitor s := by
  obtain ⟨script, -, -, -, hvisit⟩ := g.exists_script
  rw [hvisit] at h
  rw [hvisit, hvisit, play_eq_of_le hle h]

/-- The same paths are shown, too. -/
theorem visited_eq_of_le (hle : limit ≤ limit')
    (h : (g.visitPaths limit visitor s).2 ≠ .overLimit) :
    g.visited limit visitor s = g.visited limit' visitor s := by
  rw [← map_visitPaths_recording, Prod.map_snd, id] at h
  rw [visited, visited, visitPaths_eq_of_le hle h]

/-- A visit shows the first ones of one list of paths. -/
theorem exists_visited (g : Graph ν) :
    ∃ ps : List (Path ν), ps.map Path.course = g.routes.map Route.course ∧
      ∀ (σ β : Type) (limit : Nat) (visitor : Visitor ν σ β) (s : σ),
        g.visited limit visitor s <+: ps ∧
        visitor.Recorded s (g.visited limit visitor s) (g.visitPaths limit visitor s).2 := by
  obtain ⟨ps, hcourses, -, hends⟩ := g.exists_replay
  refine ⟨ps, hcourses, fun σ β limit visitor s => ?_⟩
  have hsame : _ = g.visitPaths limit visitor s := map_visitPaths_recording
  rw [← hsame]
  exact (hends _ _ limit visitor.recording (s, [])).recorded

/-- **The limit on the number of paths is exact and monotone.** A visitor that never breaks off is
stopped exactly if there are more routes than the limit, and so is the list of all paths. Whatever
the visitor is, a larger limit shows it the same paths and possibly more, and where the smaller
limit has not stopped it, the same paths with the same end. -/
theorem visitPaths_limit (g : Graph ν) (hg : g.Listed) :
    (∀ (σ β : Type) (limit : Nat) (visitor : Visitor ν σ β) (s : σ), visitor.Patient →
      ((g.visitPaths limit visitor s).2 = .overLimit ↔
        limit < {r : Route ν | r.Runs g.entry g.edges}.encard)) ∧
    (∀ limit : Nat, g.enumerate limit = none ↔
      limit < {r : Route ν | r.Runs g.entry g.edges}.encard) ∧
    ∀ (σ β : Type) (limit limit' : Nat) (visitor : Visitor ν σ β) (s : σ), limit ≤ limit' →
      g.visited limit visitor s <+: g.visited limit' visitor s ∧
      ((g.visitPaths limit visitor s).2 ≠ .overLimit →
        g.visited limit visitor s = g.visited limit' visitor s ∧
        g.visitPaths limit visitor s = g.visitPaths limit' visitor s) := by
  rw [hg.encard_runs]
  refine ⟨fun σ β limit visitor s hpatient => ?_, fun limit => ?_,
    fun σ β limit limit' visitor s hle => ⟨visited_mono hle, fun h => ?_⟩⟩
  · rw [visitPaths_eq_overLimit_iff hpatient, Nat.cast_lt]
  · rw [enumerate_eq_none_iff, Nat.cast_lt]
  · exact ⟨visited_eq_of_le hle h, visitPaths_eq_of_le hle h⟩

end Graph

/-- Counts the paths. -/
def Visitor.tally : Visitor ν Nat Empty := fun n _ => (n + 1, none)

/-- Counts the paths up to the first that visits a node, and breaks off with its number. -/
def Visitor.seek [DecidableEq ν] (v : ν) : Visitor ν Nat Nat :=
  fun n p => (n + 1, if v ∈ p.nodes then some p.id else none)

namespace Graph

/-- Four routes are too many for a limit of three. It shows two of them before it strikes, so that a
visitor that breaks off at the second does not notice. -/
theorem visitPaths_limit_twoLoops :
    twoLoops.Listed ∧
    3 < {r : Route Nat | r.Runs twoLoops.entry twoLoops.edges}.encard ∧
    ¬ 4 < {r : Route Nat | r.Runs twoLoops.entry twoLoops.edges}.encard ∧
    twoLoops.visitPaths 3 .tally 0 = (2, .overLimit) ∧ twoLoops.enumerate 3 = none ∧
    twoLoops.visitPaths 4 .tally 0 = (4, .complete) ∧
    twoLoops.visitPaths 3 (.seek 2) 0 = (2, .broken 2) ∧
    twoLoops.visitPaths 100 (.seek 2) 0 = (2, .broken 2) ∧
    twoLoops.visited 3 (.seek 2) 0 = twoLoops.visited 100 (.seek 2) 0 := by
  obtain ⟨hpatient, hall, hmono⟩ := visitPaths_limit twoLoops listed_twoLoops
  have hover : twoLoops.visitPaths 3 .tally 0 = (2, .overLimit) := by cbv
  have hcomplete : twoLoops.visitPaths 4 .tally 0 = (4, .complete) := by cbv
  have hbroken : twoLoops.visitPaths 3 (.seek 2) 0 = (2, .broken 2) := by cbv
  have htally : (Visitor.tally : Visitor Nat _ _).Patient := fun _ _ => rfl
  have hlt := (hpatient _ _ 3 .tally 0 htally).1 (congrArg Prod.snd hover)
  obtain ⟨-, hsame⟩ := hmono _ _ 3 100 (.seek 2) 0 (by decide)
  obtain ⟨hvisited, hvisit⟩ := hsame (by rw [hbroken]; decide)
  refine ⟨listed_twoLoops, hlt, fun hlt => ?_, hover, (hall 3).2 hlt, hcomplete, hbroken,
    hvisit.symm.trans hbroken, hvisited⟩
  have hfour := (hpatient _ _ 4 .tally 0 htally).2 hlt
  rw [hcomplete] at hfour
  cases hfour

end Graph

end BarrierLowering
