import BarrierLowering.Proofs.Routes

/-!
# Visits that are broken off

What a visit of the paths does next depends neither on its limit nor on its visitor, as long as
they let it go on: it follows a script, which says where it numbers new branches and which paths
it shows. So a visit that is broken off, or that runs into its limit, has shown the first ones of
all paths.

## Main definitions

* `Action`, `play` — what a visit does next, and a script of actions.
* `Follows`, `Scripted` — a search that does what a script says.
* `Visitor.Ends` — how a visit of some paths can end.

## Main results

* `Graph.scripted_search` — the search from a node follows a script.
* `Graph.exists_replay` — every visit of a graph goes through one list of paths.
* `Graph.exists_listed` — that list holds the same paths as the list of all paths.
-/

namespace BarrierLowering

variable {ν σ β : Type}

/-! ### Scripts -/

/-- What a visit does next. -/
inductive Action (ν : Type)
  /-- Number some new branches. -/
  | number (count : Nat)
  /-- Show a path. -/
  | present (path : Path ν)

/-- Do it, if the limit and the visitor allow. -/
def Action.perform (limit : Nat) (visitor : Visitor ν σ β) (v : Visit σ) :
    Action ν → VisitStep σ β (Visit σ)
  | .number count =>
    if limit < v.nextId + count then .error (v.state, .overLimit)
    else .ok { v with nextId := v.nextId + count }
  | .present path => v.show visitor path

/-- Follow a script. -/
def play (limit : Nat) (visitor : Visitor ν σ β) (script : List (Action ν)) (v : Visit σ) :
    VisitStep σ β (Visit σ) :=
  script.foldlM (fun v a => a.perform limit visitor v) v

/-- The paths that a script shows. -/
def shown : List (Action ν) → List (Path ν)
  | [] => []
  | .number _ :: script => shown script
  | .present path :: script => path :: shown script

/-- How many branches a script numbers. -/
def numbered : List (Action ν) → Nat
  | [] => 0
  | .number count :: script => count + numbered script
  | .present _ :: script => numbered script

/-- How a visit has ended after its last step. -/
def finish : VisitStep σ β (Visit σ) → σ × VisitEnd β
  | .ok v => (v.state, .complete)
  | .error ended => ended

section Play

variable {limit : Nat} {visitor : Visitor ν σ β} {script script' : List (Action ν)} {s s' : σ}
  {next count : Nat} {path : Path ν}

@[simp] theorem play_nil {v : Visit σ} : play limit visitor [] v = .ok v := rfl

theorem play_number : play limit visitor (.number count :: script) ⟨next, s⟩ =
    if limit < next + count then .error (s, .overLimit)
    else play limit visitor script ⟨next + count, s⟩ := by
  rw [play, List.foldlM_cons, Action.perform]
  split <;> rfl

theorem play_present_of_none (h : visitor s path = (s', none)) :
    play limit visitor (.present path :: script) ⟨next, s⟩ =
      play limit visitor script ⟨next, s'⟩ := by
  rw [play, List.foldlM_cons, Action.perform, Visit.show, h]
  rfl

theorem play_present_of_some {reason : β} (h : visitor s path = (s', some reason)) :
    play limit visitor (.present path :: script) ⟨next, s⟩ = .error (s', .broken reason) := by
  rw [play, List.foldlM_cons, Action.perform, Visit.show, h]
  rfl

theorem play_append {v : Visit σ} : play limit visitor (script ++ script') v =
    play limit visitor script v >>= play limit visitor script' :=
  List.foldlM_append

/-- A script that was followed to its end has shown its paths and numbered its branches. -/
theorem accepts_of_play {v : Visit σ} (h : play limit visitor script ⟨next, s⟩ = .ok v) :
    visitor.Accepts s (shown script) v.state ∧ v.nextId = next + numbered script := by
  induction script generalizing next s with
  | nil =>
    cases h
    exact ⟨.nil s, rfl⟩
  | cons a script ih =>
    cases a with
    | number count =>
      rw [play_number] at h
      split at h
      · cases h
      · obtain ⟨haccepts, hnext⟩ := ih h
        exact ⟨haccepts, by rw [hnext, numbered, Nat.add_assoc]⟩
    | present path =>
      rcases hvisit : visitor s path with ⟨s', _ | reason⟩
      · rw [play_present_of_none hvisit] at h
        obtain ⟨haccepts, hnext⟩ := ih h
        exact ⟨.cons hvisit haccepts, hnext⟩
      · rw [play_present_of_some hvisit] at h
        cases h

/-- A visitor that accepts the paths of a script has it followed to the end, if the limit allows. -/
theorem play_of_accepts (h : visitor.Accepts s (shown script) s')
    (hle : next + numbered script ≤ limit) :
    play limit visitor script ⟨next, s⟩ = .ok ⟨next + numbered script, s'⟩ := by
  induction script generalizing next s with
  | nil =>
    cases h
    rfl
  | cons a script ih =>
    cases a with
    | number count =>
      rw [numbered, ← Nat.add_assoc] at hle ⊢
      rw [play_number, if_neg (by omega), ih h hle]
    | present path =>
      obtain ⟨s₁, hvisit, haccepts⟩ := Visitor.accepts_cons_iff.1 h
      rw [play_present_of_none hvisit, ih haccepts hle]
      rfl

/-- A script that was not followed to its end has shown the first ones of its paths. The visitor
has broken it off at the next one, or the limit does not allow all its branches. -/
theorem exists_of_play_error {ended : σ × VisitEnd β}
    (h : play limit visitor script ⟨next, s⟩ = .error ended) :
    ∃ ps qs s', shown script = ps ++ qs ∧ visitor.Accepts s ps s' ∧
      ((∃ p qs' reason, qs = p :: qs' ∧ visitor s' p = (ended.1, some reason) ∧
        ended.2 = .broken reason) ∨
      limit < next + numbered script ∧ ended = (s', .overLimit)) := by
  induction script generalizing next s with
  | nil => cases h
  | cons a script ih =>
    cases a with
    | number count =>
      rw [play_number] at h
      split at h
      · next hlt =>
        cases h
        exact ⟨[], shown script, s, rfl, .nil s, .inr ⟨by rw [numbered]; omega, rfl⟩⟩
      · obtain ⟨ps, qs, s', hshown, haccepts, hend⟩ := ih h
        refine ⟨ps, qs, s', hshown, haccepts, hend.imp_right fun ⟨hlt, hover⟩ => ⟨?_, hover⟩⟩
        rwa [numbered, ← Nat.add_assoc]
    | present path =>
      rcases hvisit : visitor s path with ⟨s₁, _ | reason⟩
      · rw [play_present_of_none hvisit] at h
        obtain ⟨ps, qs, s', hshown, haccepts, hend⟩ := ih h
        exact ⟨path :: ps, qs, s', by rw [shown, hshown, List.cons_append], .cons hvisit haccepts,
          hend⟩
      · rw [play_present_of_some hvisit] at h
        cases h
        exact ⟨[], path :: shown script, s, rfl, .nil s, .inl ⟨path, _, reason, rfl, hvisit, rfl⟩⟩

end Play

/-! ### Searches that follow a script -/

/-- A search that begins with a number does what a script says, whatever the limit and the visitor
are. -/
def Follows (search : Search ν) (next : Nat) (script : List (Action ν)) : Prop :=
  ∀ (σ β : Type) (limit : Nat) (visitor : Visitor ν σ β) (s : σ),
    search σ β limit visitor ⟨next, s⟩ = play limit visitor script ⟨next, s⟩

/-- Whatever number a search begins with, it follows a script. -/
def Scripted (search : Search ν) : Prop := ∀ next, ∃ script, Follows search next script

theorem scripted_show (path : Path ν) : Scripted fun _ _ _ visitor v => v.show visitor path := by
  refine fun next => ⟨[.present path], fun σ β limit visitor s => ?_⟩
  dsimp only
  rcases hvisit : visitor s path with ⟨s', _ | reason⟩
  · rw [play_present_of_none hvisit, Visit.show, hvisit, play_nil]
  · rw [play_present_of_some hvisit, Visit.show, hvisit]

/-- One search after another follows their scripts one after the other. -/
theorem Scripted.append {search₁ search₂ : Search ν} (h₁ : Scripted search₁)
    (h₂ : Scripted search₂) :
    Scripted fun σ β limit visitor v =>
      search₁ σ β limit visitor v >>= search₂ σ β limit visitor := by
  intro next
  obtain ⟨script₁, hscript₁⟩ := h₁ next
  obtain ⟨script₂, hscript₂⟩ := h₂ (next + numbered script₁)
  refine ⟨script₁ ++ script₂, fun σ β limit visitor s => ?_⟩
  dsimp only
  rw [play_append, hscript₁]
  cases hplay : play limit visitor script₁ ⟨next, s⟩ with
  | error ended => rfl
  | ok v =>
    obtain ⟨n, s'⟩ := v
    obtain ⟨-, rfl⟩ := accepts_of_play hplay
    exact hscript₂ σ β limit visitor s'

theorem scripted_foldlM (search : ν × Nat → Search ν) (l : List (ν × Nat))
    (h : ∀ x ∈ l, Scripted (search x)) :
    Scripted fun σ β limit visitor v => l.foldlM (fun v x => search x σ β limit visitor v) v := by
  induction l with
  | nil => exact fun next => ⟨[], fun σ β limit visitor s => rfl⟩
  | cons x l ih =>
    simp only [List.foldlM_cons]
    exact (h x List.mem_cons_self).append (ih fun y hy => h y (List.mem_cons_of_mem _ hy))

/-- What a search delivers is what its script shows. -/
theorem Delivers.shown_eq {search : Search ν} {numbers : List Nat}
    {courses : List (List ν × PathEnd)} {next : Nat} {script : List (Action ν)}
    (h : Delivers search numbers courses) (hscript : Follows search next script) :
    (shown script).map Path.course = courses ∧
      ((shown script).map Path.id).Perm (numbers ++ List.range' next (numbered script)) := by
  obtain ⟨ps, taken, hps, hcourses, hids⟩ := h next
  -- a visitor that collects all paths sees both lists
  have hpatient : (Visitor.collect : Visitor ν _ _).Patient := Visitor.patient_collect
  have hleft := hps _ _ (next + taken + numbered script) .collect [] _ (hpatient.accepts [] ps)
    (by omega)
  have hright := play_of_accepts (hpatient.accepts [] (shown script))
    (show next + numbered script ≤ next + taken + numbered script by omega)
  rw [hscript, hright, Visitor.watch_collect, Visitor.watch_collect] at hleft
  obtain ⟨htaken, hpaths⟩ := Visit.mk.inj (Except.ok.inj hleft)
  rw [List.reverse_inj.1 hpaths, Nat.add_left_cancel htaken]
  exact ⟨hcourses, hids⟩

namespace Graph

variable [DecidableEq ν] {g : Graph ν}

/-- **The search from a node follows a script.** -/
theorem scripted_search (g : Graph ν) (trail : List ν) (node : ν) (id : Nat) :
    Scripted (g.search trail node id) := by
  refine completionInduction g (motive := fun trail node => ∀ id,
    Scripted (g.search trail node id)) ?_ ?_ ?_ trail node id
  · intro trail node hmem id
    have hsearch : g.search trail node id =
        fun _ _ _ visitor v => v.show visitor ⟨id, trail, .backEdge⟩ := by
      funext σ β limit visitor v
      rw [search, visitFrom_of_mem hmem]
    rw [hsearch]
    exact scripted_show _
  · intro trail node hmem hs id
    have hsearch : g.search trail node id =
        fun _ _ _ visitor v => v.show visitor ⟨id, trail ++ [node], .exit⟩ := by
      funext σ β limit visitor v
      rw [search, visitFrom_of_exit hmem hs]
    rw [hsearch]
    exact scripted_show _
  · -- a branch numbers the other successors first
    intro trail node hmem hs ih id next
    obtain ⟨first, others, hcons⟩ := List.exists_cons_of_ne_nil hs
    obtain ⟨script, hscript⟩ := scripted_foldlM (fun x => g.search (trail ++ [node]) x.1 x.2)
      ((first, id) :: others.zipIdx next)
      (fun x hx => ih x.1 (edge_of_mem_numbered hcons hx) x.2) (next + others.length)
    refine ⟨.number others.length :: script, fun σ β limit visitor s => ?_⟩
    rw [play_number, ← hscript, search, visitFrom_of_succs hmem hcons]
    rfl

/-- A visit of a graph follows a script that shows the paths along its routes, and numbers each of
them. -/
theorem exists_script (g : Graph ν) : ∃ script : List (Action ν),
    (shown script).map Path.course = g.routes.map Route.course ∧
    ((shown script).map Path.id).Perm (List.range g.routes.length) ∧
    numbered script = g.routes.length ∧
    ∀ (σ β : Type) (limit : Nat) (visitor : Visitor ν σ β) (s : σ),
      g.visitPaths limit visitor s = finish (play limit visitor script ⟨0, s⟩) := by
  cases he : g.entry with
  | none =>
    have hroutes : g.routes = [] := by rw [routes, he]
    refine ⟨[], by rw [hroutes]; rfl, by rw [hroutes]; exact .refl _, by rw [hroutes]; rfl,
      fun σ β limit visitor s => ?_⟩
    rw [visitPaths, he]
    rfl
  | some e =>
    obtain ⟨script, hscript⟩ := g.scripted_search [] e 0 1
    obtain ⟨hcourses, hids⟩ := (g.delivers_routesFrom [] e 0).shown_eq hscript
    have hroutes : g.routes = g.routesFrom [] e := by rw [routes, he]
    have hlength : 1 + numbered script = g.routes.length := by
      have hcount := hids.length_eq
      rw [List.length_map, List.length_append, List.length_range', List.length_singleton] at hcount
      rw [hroutes, ← List.length_map Route.course, ← hcourses, List.length_map, hcount]
    -- the number of the first path is given before the search begins
    refine ⟨.number 1 :: script, by rw [shown, hcourses, hroutes], ?_, hlength,
      fun σ β limit visitor s => ?_⟩
    · rw [← hlength, Nat.add_comm, List.range_eq_range', List.range'_succ]
      exact hids
    · rw [visitPaths, he, play_number, ← hscript]
      dsimp only
      by_cases hlimit : limit = 0
      · rw [if_pos hlimit, if_pos (by omega)]
        rfl
      · rw [if_neg hlimit, if_neg (by omega)]
        rfl

end Graph

/-! ### How a visit ends -/

/-- How a visit of some paths can end: all were shown, the visitor broke off at one of them, or
there are more than the limit. In each case the paths before were shown. -/
inductive Visitor.Ends (visitor : Visitor ν σ β) (limit : Nat) (s : σ) (ps : List (Path ν)) :
    σ × VisitEnd β → Prop
  | complete {s' : σ} : visitor.Accepts s ps s' → Ends visitor limit s ps (s', .complete)
  | broken {qs rest : List (Path ν)} {p : Path ν} {s₁ s' : σ} {reason : β} : ps = qs ++ p :: rest →
      visitor.Accepts s qs s₁ → visitor s₁ p = (s', some reason) →
      Ends visitor limit s ps (s', .broken reason)
  | overLimit {qs rest : List (Path ν)} {s' : σ} : ps = qs ++ rest → visitor.Accepts s qs s' →
      limit < ps.length → Ends visitor limit s ps (s', .overLimit)

namespace Visitor

variable {visitor : Visitor ν σ β} {limit : Nat} {s s' : σ} {ps : List (Path ν)}

/-- A visitor that accepts some paths is in one state afterwards. -/
theorem Accepts.eq_watch (h : visitor.Accepts s ps s') : s' = visitor.watch s ps := by
  induction h with
  | nil s => rfl
  | cons hp _ ih => rw [ih, watch, watch, List.foldl_cons, hp]

/-- A visitor that never breaks off is shown all paths within a sufficient limit. -/
theorem Ends.eq_of_patient {ended : σ × VisitEnd β} (h : visitor.Ends limit s ps ended)
    (hpatient : visitor.Patient) (hle : ps.length ≤ limit) :
    ended = (visitor.watch s ps, .complete) := by
  cases h with
  | complete haccepts => rw [haccepts.eq_watch]
  | @broken _ _ p s₁ _ _ _ _ hbreaks =>
    have hnone := hpatient s₁ p
    rw [hbreaks] at hnone
    cases hnone
  | overLimit _ _ hlt => exact absurd hlt (Nat.not_lt.2 hle)

/-- A script that numbers as many paths as it shows. -/
theorem ends_finish {script : List (Action ν)} (h : numbered script = (shown script).length) :
    visitor.Ends limit s (shown script) (finish (play limit visitor script ⟨0, s⟩)) := by
  cases hplay : play limit visitor script ⟨0, s⟩ with
  | ok v => exact .complete (accepts_of_play hplay).1
  | error ended =>
    obtain ⟨qs, rest, s', hshown, haccepts, hend⟩ := exists_of_play_error hplay
    rcases hend with ⟨p, rest, reason, rfl, hbreaks, hbroken⟩ | ⟨hlt, rfl⟩
    · obtain ⟨state, fate⟩ := ended
      cases hbroken
      exact .broken hshown haccepts hbreaks
    · exact .overLimit hshown haccepts (by omega)

end Visitor

namespace Graph

variable [DecidableEq ν] {g : Graph ν}

/-- **Every visit of a graph goes through one list of paths**, as far as it comes. The paths are
those along the routes, in their order, numbered without gaps. -/
theorem exists_replay (g : Graph ν) :
    ∃ ps : List (Path ν), ps.map Path.course = g.routes.map Route.course ∧
      (ps.map Path.id).Perm (List.range g.routes.length) ∧
      ∀ (σ β : Type) (limit : Nat) (visitor : Visitor ν σ β) (s : σ),
        visitor.Ends limit s ps (g.visitPaths limit visitor s) := by
  obtain ⟨script, hcourses, hids, hnumbered, hvisit⟩ := g.exists_script
  have hcount : numbered script = (shown script).length := by
    rw [hnumbered, ← List.length_map Route.course, ← hcourses, List.length_map]
  refine ⟨shown script, hcourses, hids, fun σ β limit visitor s => ?_⟩
  rw [hvisit σ β limit visitor s]
  exact Visitor.ends_finish hcount

/-- The paths that a visit goes through are those of the list of all paths, which does not depend
on its limit if that is sufficient. -/
theorem exists_listed (g : Graph ν) :
    ∃ ps listed : List (Path ν), ps.map Path.course = g.routes.map Route.course ∧
      listed.Perm ps ∧ listed.map Path.id = List.range listed.length ∧
      (∀ limit, listed.length ≤ limit → g.enumerate limit = some listed) ∧
      ∀ (σ β : Type) (limit : Nat) (visitor : Visitor ν σ β) (s : σ),
        visitor.Ends limit s ps (g.visitPaths limit visitor s) := by
  obtain ⟨ps, hcourses, hids, hends⟩ := g.exists_replay
  have hlength : ps.length = g.routes.length := by
    rw [← List.length_map Path.course, hcourses, List.length_map]
  have hvisit : ∀ {limit}, ps.length ≤ limit → ∀ (σ β : Type) (visitor : Visitor ν σ β) (s : σ),
      visitor.Patient → g.visitPaths limit visitor s = (visitor.watch s ps, .complete) :=
    fun hle σ β visitor s hpatient => (hends σ β _ visitor s).eq_of_patient hpatient hle
  obtain ⟨listed, hlisted, hperm, hnumbers⟩ := exists_enumerate (hvisit le_rfl) hids
  rw [← hlength, ← hperm.length_eq] at hnumbers
  refine ⟨ps, listed, hcourses, hperm, hnumbers, fun limit hle => ?_, hends⟩
  rw [hperm.length_eq] at hle
  rw [← hlisted, enumerate_eq, enumerate_eq, hvisit hle _ _ _ _ Visitor.patient_collect,
    hvisit le_rfl _ _ _ _ Visitor.patient_collect]

end Graph

end BarrierLowering
