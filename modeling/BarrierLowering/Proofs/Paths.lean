import BarrierLowering.Paths
import BarrierLowering.Proofs.Search

/-!
# The paths a visitor is shown

Without its limit and its numbers, the search over maximal acyclic paths is a plain recursion:
it goes on from a trail in every way there is. A visit that ends well has shown exactly the
paths of that recursion, in its order.

## Main definitions

* `Graph.completions` — the ways to go on from a trail.
* `Visitor.Accepts` — a visitor looks at some paths and does not break off.

## Main results

* `Graph.accepts_of_visitPaths` — a complete visit shows all completions of the entry.
* `Graph.isWalk_of_mem_completions` — a completion is a walk without repeats.
* `Graph.exists_completion` — a walk without repeats goes on to a completion.
-/

namespace BarrierLowering

variable {ν σ β : Type}

/-- How a path runs and ends, without its number. -/
def Path.course (p : Path ν) : List ν × PathEnd := (p.nodes, p.finish)

/-- The visitor looks at some paths one after another, which takes it from one state to
another, and does not break off. -/
inductive Visitor.Accepts (visitor : Visitor ν σ β) : σ → List (Path ν) → σ → Prop
  | nil (s : σ) : Accepts visitor s [] s
  | cons {s s' s'' : σ} {p : Path ν} {ps : List (Path ν)} :
      visitor s p = (s', none) → Accepts visitor s' ps s'' → Accepts visitor s (p :: ps) s''

namespace Visitor

variable {visitor : Visitor ν σ β} {s s' s'' : σ} {p : Path ν} {ps qs : List (Path ν)}

theorem Accepts.append (h₁ : visitor.Accepts s ps s') (h₂ : visitor.Accepts s' qs s'') :
    visitor.Accepts s (ps ++ qs) s'' := by
  induction h₁ with
  | nil s => exact h₂
  | cons hp _ ih => exact .cons hp (ih h₂)

theorem accepts_cons_iff : visitor.Accepts s (p :: ps) s'' ↔
    ∃ s', visitor s p = (s', none) ∧ visitor.Accepts s' ps s'' := by
  constructor
  · rintro ⟨⟩
    exact ⟨_, ‹_›, ‹_›⟩
  · rintro ⟨s', hp, hps⟩
    exact .cons hp hps

/-- A visitor looks at two lists of paths one after the other. -/
theorem accepts_append_iff : visitor.Accepts s (ps ++ qs) s'' ↔
    ∃ s', visitor.Accepts s ps s' ∧ visitor.Accepts s' qs s'' := by
  refine ⟨fun h => ?_, fun ⟨_, h₁, h₂⟩ => h₁.append h₂⟩
  induction ps generalizing s with
  | nil => exact ⟨s, .nil s, h⟩
  | cons p ps ih =>
    obtain ⟨s₁, hp, hrest⟩ := accepts_cons_iff.1 h
    obtain ⟨s', hps, hqs⟩ := ih hrest
    exact ⟨s', .cons hp hps, hqs⟩

/-- Showing a path goes on only if the visitor accepts it. -/
theorem accepts_of_show {v v' : Visit σ} (h : v.show visitor p = .ok v') :
    visitor.Accepts v.state [p] v'.state := by
  unfold Visit.show at h
  split at h
  · next state hp =>
    cases h
    exact .cons hp (.nil _)
  · cases h

end Visitor

namespace Graph

variable [DecidableEq ν] {g : Graph ν} {u v e node : ν} {w trail rest : List ν}
  {c : List ν × PathEnd}

/-- The ways to go on from `trail` to `node` until no new node can be visited, in the order of
the search. -/
def completions (g : Graph ν) (trail : List ν) (node : ν) : List (List ν × PathEnd) :=
  if node ∈ trail then [(trail, .backEdge)]
  else
    match _hsuccs : g.succs node with
    | [] => [(trail ++ [node], .exit)]
    | first :: others =>
      (first :: others).flatMap fun succ => g.completions (trail ++ [node]) succ
termination_by (g.outside trail).length
decreasing_by
  refine g.length_outside_append_lt ?_ ‹node ∉ trail› List.mem_cons_self
  by_cases hnode : node ∈ g.nodes
  · exact hnode
  · simp [succs, hnode] at _hsuccs

/-! ### Equations -/

theorem completions_of_mem (h : node ∈ trail) :
    g.completions trail node = [(trail, .backEdge)] := by
  rw [completions, if_pos h]

theorem completions_of_exit (h : node ∉ trail) (hs : g.succs node = []) :
    g.completions trail node = [(trail ++ [node], .exit)] := by
  rw [completions, if_neg h]
  split
  · rfl
  · next hcons => rw [hs] at hcons; cases hcons

theorem completions_of_succs (h : node ∉ trail) (hs : g.succs node ≠ []) :
    g.completions trail node = (g.succs node).flatMap (g.completions (trail ++ [node])) := by
  rw [completions, if_neg h]
  split
  · next hnil => exact absurd hnil hs
  · next hcons => rw [hcons]

/-- A new node that can be left is one node less outside the trail. -/
theorem length_outside_snoc_lt (h : node ∉ trail) (hs : g.succs node ≠ []) :
    (g.outside (trail ++ [node])).length < (g.outside trail).length := by
  refine g.length_outside_append_lt ?_ h List.mem_cons_self
  by_contra hnode
  exact hs (by rw [succs, if_neg hnode])

/-- Induction over the search, by what can happen at a node. -/
theorem completionInduction (g : Graph ν) {motive : List ν → ν → Prop}
    (back : ∀ trail node, node ∈ trail → motive trail node)
    (exit : ∀ trail node, node ∉ trail → g.succs node = [] → motive trail node)
    (step : ∀ trail node, node ∉ trail → g.succs node ≠ [] →
      (∀ u, g.Edge node u → motive (trail ++ [node]) u) → motive trail node)
    (trail : List ν) (node : ν) : motive trail node := by
  induction hn : (g.outside trail).length using Nat.strong_induction_on generalizing trail node with
  | _ n ih =>
    by_cases hmem : node ∈ trail
    · exact back trail node hmem
    · by_cases hs : g.succs node = []
      · exact exit trail node hmem hs
      · refine step trail node hmem hs fun u _ => ?_
        exact ih _ (hn ▸ length_outside_snoc_lt hmem hs) _ u rfl

section Equations

variable {limit id : Nat} {visitor : Visitor ν σ β} {v : Visit σ}

theorem visitFrom_of_mem (h : node ∈ trail) :
    g.visitFrom limit visitor id trail node v = v.show visitor ⟨id, trail, .backEdge⟩ := by
  rw [visitFrom, if_pos h]

theorem visitFrom_of_exit (h : node ∉ trail) (hs : g.succs node = []) :
    g.visitFrom limit visitor id trail node v = v.show visitor ⟨id, trail ++ [node], .exit⟩ := by
  rw [visitFrom, if_neg h]
  split
  · rfl
  · next hcons => rw [hs] at hcons; cases hcons

theorem visitFrom_of_succs {first : ν} {others : List ν} (h : node ∉ trail)
    (hs : g.succs node = first :: others) : g.visitFrom limit visitor id trail node v =
      if limit < v.nextId + others.length then .error (v.state, .overLimit)
      else ((first, id) :: others.zipIdx v.nextId).foldlM
        (fun v (succ, id) => g.visitFrom limit visitor id (trail ++ [node]) succ v)
        { v with nextId := v.nextId + others.length } := by
  rw [visitFrom, if_neg h]
  split
  · next hnil => rw [hs] at hnil; cases hnil
  · next hcons =>
    obtain ⟨rfl, rfl⟩ := List.cons.inj (hcons.symm.trans hs)
    rfl

end Equations

/-! ### What a visit shows -/

omit [DecidableEq ν] in
/-- A fold over nodes shows what its steps show. -/
theorem accepts_of_foldlM {visitor : Visitor ν σ β} {l : List (ν × Nat)}
    {visit : Visit σ → ν × Nat → VisitStep σ β (Visit σ)} {courses : ν → List (List ν × PathEnd)}
    (hvisit : ∀ x ∈ l, ∀ v v', visit v x = .ok v' →
      ∃ ps, visitor.Accepts v.state ps v'.state ∧ ps.map Path.course = courses x.1)
    {v v' : Visit σ} (h : l.foldlM visit v = .ok v') :
    ∃ ps, visitor.Accepts v.state ps v'.state ∧
      ps.map Path.course = (l.map (·.1)).flatMap courses := by
  induction l generalizing v with
  | nil =>
    cases h
    exact ⟨[], .nil _, rfl⟩
  | cons x l ih =>
    rw [List.foldlM_cons] at h
    cases hx : visit v x with
    | error ended => rw [hx] at h; cases h
    | ok v₁ =>
      rw [hx] at h
      obtain ⟨ps, hps, hcourse⟩ := hvisit x List.mem_cons_self v v₁ hx
      obtain ⟨qs, hqs, hcourses⟩ := ih (fun y hy => hvisit y (List.mem_cons_of_mem _ hy)) h
      refine ⟨ps ++ qs, hps.append hqs, ?_⟩
      rw [List.map_append, hcourse, hcourses, List.map_cons, List.flatMap_cons]

/-- The successors of a node with their path numbers are successors of the node. -/
theorem edge_of_mem_numbered {first : ν} {others : List ν} {id next : Nat} {x : ν × Nat}
    (hs : g.succs node = first :: others) (hx : x ∈ (first, id) :: others.zipIdx next) :
    g.Edge node x.1 := by
  rw [Edge, hs]
  rcases List.mem_cons.1 hx with rfl | hx
  · exact List.mem_cons_self
  · obtain ⟨-, -, hu⟩ := List.mem_zipIdx hx
    rw [hu]
    exact List.mem_cons_of_mem _ (List.getElem_mem _)

/-- A visit that goes on has shown all completions. -/
theorem accepts_of_visitFrom {limit : Nat} {visitor : Visitor ν σ β} :
    ∀ (id : Nat) (v v' : Visit σ), g.visitFrom limit visitor id trail node v = .ok v' →
      ∃ ps, visitor.Accepts v.state ps v'.state ∧
        ps.map Path.course = g.completions trail node := by
  refine completionInduction g (motive := fun trail node => ∀ (id : Nat) (v v' : Visit σ),
    g.visitFrom limit visitor id trail node v = .ok v' → ∃ ps,
      visitor.Accepts v.state ps v'.state ∧ ps.map Path.course = g.completions trail node)
    ?_ ?_ ?_ trail node
  · intro trail node hmem id v v' h
    rw [visitFrom_of_mem hmem] at h
    refine ⟨_, Visitor.accepts_of_show h, ?_⟩
    rw [completions_of_mem hmem]
    rfl
  · intro trail node hmem hs id v v' h
    rw [visitFrom_of_exit hmem hs] at h
    refine ⟨_, Visitor.accepts_of_show h, ?_⟩
    rw [completions_of_exit hmem hs]
    rfl
  · intro trail node hmem hs ih id v v' h
    obtain ⟨first, others, hcons⟩ := List.exists_cons_of_ne_nil hs
    rw [visitFrom_of_succs hmem hcons] at h
    split at h
    · cases h
    · obtain ⟨ps, hps, hcourses⟩ := accepts_of_foldlM
        (fun x hx v v' hv => ih x.1 (edge_of_mem_numbered hcons hx) x.2 v v' hv) h
      refine ⟨ps, hps, ?_⟩
      rw [hcourses, completions_of_succs hmem hs, hcons, List.map_cons, List.zipIdx_map_fst]

/-- A fold that fails has failed at one of its steps. -/
theorem exists_of_foldlM_error {α ε : Type} {l : List α} {step : σ → α → Except ε σ} {s : σ}
    {error : ε} (h : l.foldlM step s = .error error) : ∃ x ∈ l, ∃ s', step s' x = .error error := by
  induction l generalizing s with
  | nil => cases h
  | cons x l ih =>
    rw [List.foldlM_cons] at h
    cases hx : step s x with
    | error error' =>
      rw [hx] at h
      cases h
      exact ⟨x, List.mem_cons_self, s, hx⟩
    | ok s' =>
      rw [hx] at h
      obtain ⟨y, hy, hstep⟩ := ih h
      exact ⟨y, List.mem_cons_of_mem _ hy, hstep⟩

/-- A visit that has ended before its last path is over the limit, or the visitor broke it off. -/
theorem ended_of_visitFrom {limit : Nat} {visitor : Visitor ν σ β} :
    ∀ (id : Nat) (v : Visit σ) (ended : σ × VisitEnd β),
      g.visitFrom limit visitor id trail node v = .error ended →
        ended.2 = .overLimit ∨ ∃ s p reason, (visitor s p).2 = some reason ∧
          ended.2 = .broken reason := by
  have hshow : ∀ {p : Path ν} {v : Visit σ} {ended : σ × VisitEnd β},
      v.show visitor p = .error ended → ended.2 = .overLimit ∨ ∃ s p reason,
        (visitor s p).2 = some reason ∧ ended.2 = .broken reason := by
    intro p v ended h
    unfold Visit.show at h
    split at h
    · cases h
    · next state reason hvisit =>
      cases h
      exact Or.inr ⟨v.state, p, reason, by rw [hvisit], rfl⟩
  refine completionInduction g (motive := fun trail node => ∀ (id : Nat) (v : Visit σ)
    (ended : σ × VisitEnd β), g.visitFrom limit visitor id trail node v = .error ended →
      ended.2 = .overLimit ∨ ∃ s p reason, (visitor s p).2 = some reason ∧
        ended.2 = .broken reason) ?_ ?_ ?_ trail node
  · intro trail node hmem id v ended h
    rw [visitFrom_of_mem hmem] at h
    exact hshow h
  · intro trail node hmem hs id v ended h
    rw [visitFrom_of_exit hmem hs] at h
    exact hshow h
  · intro trail node hmem hs ih id v ended h
    obtain ⟨first, others, hcons⟩ := List.exists_cons_of_ne_nil hs
    rw [visitFrom_of_succs hmem hcons] at h
    split at h
    · cases h
      exact Or.inl rfl
    · obtain ⟨x, hx, v₁, hstep⟩ := exists_of_foldlM_error h
      exact ih x.1 (edge_of_mem_numbered hcons hx) _ _ _ hstep

/-- A visit is broken off for a reason of the visitor. -/
theorem exists_of_visitPaths_broken {limit : Nat} {visitor : Visitor ν σ β} {s s' : σ} {reason : β}
    (h : g.visitPaths limit visitor s = (s', .broken reason)) :
    ∃ s p, (visitor s p).2 = some reason := by
  unfold visitPaths at h
  split at h
  · cases h
  · split at h
    · cases h
    · split at h
      · cases h
      · next ended hended =>
        rcases ended_of_visitFrom _ _ _ hended with hover | ⟨s, p, reason', hvisit, hbroken⟩
        · rw [h] at hover
          cases hover
        · rw [h] at hbroken
          cases hbroken
          exact ⟨s, p, hvisit⟩

/-- A complete visit has shown exactly the completions of the entry. -/
theorem accepts_of_visitPaths {limit : Nat} {visitor : Visitor ν σ β} {s s' : σ}
    (he : g.entry = some e) (h : g.visitPaths limit visitor s = (s', .complete)) :
    ∃ ps, visitor.Accepts s ps s' ∧ ps.map Path.course = g.completions [] e := by
  rw [visitPaths, he] at h
  dsimp only at h
  split at h
  · cases h
  · cases hv : g.visitFrom limit visitor 0 [] e ⟨1, s⟩ with
    | ok v =>
      rw [hv] at h
      cases h
      exact accepts_of_visitFrom _ _ _ hv
    | error ended =>
      rw [hv] at h
      cases h
      rcases ended_of_visitFrom _ _ _ hv with hover | ⟨_, _, _, -, hbroken⟩
      · cases hover
      · cases hbroken

/-! ### Completions and walks -/

/-- A completion begins with the trail, and with the node if it is new. -/
theorem prefix_of_mem_completions (h : c ∈ g.completions trail node) :
    trail <+: c.1 ∧ (node ∉ trail → trail ++ [node] <+: c.1) := by
  refine completionInduction g (motive := fun trail node => ∀ c ∈ g.completions trail node,
    trail <+: c.1 ∧ (node ∉ trail → trail ++ [node] <+: c.1)) ?_ ?_ ?_ trail node c h
  · intro trail node hmem c hc
    rw [completions_of_mem hmem, List.mem_singleton] at hc
    subst hc
    exact ⟨List.prefix_rfl, fun hnot => absurd hmem hnot⟩
  · intro trail node hmem hs c hc
    rw [completions_of_exit hmem hs, List.mem_singleton] at hc
    subst hc
    exact ⟨List.prefix_append _ _, fun _ => List.prefix_rfl⟩
  · intro trail node hmem hs ih c hc
    rw [completions_of_succs hmem hs, List.mem_flatMap] at hc
    obtain ⟨u, hu, hc⟩ := hc
    have hlong := (ih u hu c hc).1
    exact ⟨(List.prefix_append _ _).trans hlong, fun _ => hlong⟩

/-- There is always a way to go on. -/
theorem completions_ne_nil (g : Graph ν) (trail : List ν) (node : ν) :
    g.completions trail node ≠ [] := by
  refine completionInduction g (motive := fun trail node => g.completions trail node ≠ [])
    ?_ ?_ ?_ trail node
  · intro trail node hmem
    rw [completions_of_mem hmem]
    exact List.cons_ne_nil _ _
  · intro trail node hmem hs
    rw [completions_of_exit hmem hs]
    exact List.cons_ne_nil _ _
  · intro trail node hmem hs ih
    rw [completions_of_succs hmem hs]
    obtain ⟨u, us, hu⟩ := List.exists_cons_of_ne_nil hs
    intro hnil
    rw [List.flatMap_eq_nil_iff] at hnil
    have hmem : u ∈ g.succs node := by
      rw [hu]
      exact List.mem_cons_self
    exact ih u hmem (hnil u hmem)

/-- A completion of a walk without repeats is a walk without repeats. -/
theorem isWalk_of_mem_completions (hwalk : g.IsWalk (trail ++ [node])) (hnd : trail.Nodup)
    (h : c ∈ g.completions trail node) : g.IsWalk c.1 ∧ c.1.Nodup := by
  refine completionInduction g (motive := fun trail node => g.IsWalk (trail ++ [node]) →
    trail.Nodup → ∀ c ∈ g.completions trail node, g.IsWalk c.1 ∧ c.1.Nodup)
    ?_ ?_ ?_ trail node hwalk hnd c h
  · intro trail node hmem hwalk hnd c hc
    rw [completions_of_mem hmem, List.mem_singleton] at hc
    subst hc
    exact ⟨hwalk.left (List.ne_nil_of_mem hmem), hnd⟩
  · intro trail node hmem hs hwalk hnd c hc
    rw [completions_of_exit hmem hs, List.mem_singleton] at hc
    subst hc
    exact ⟨hwalk, List.nodup_append.2 ⟨hnd, List.nodup_singleton _, by grind⟩⟩
  · intro trail node hmem hs ih hwalk hnd c hc
    rw [completions_of_succs hmem hs, List.mem_flatMap] at hc
    obtain ⟨u, hu, hc⟩ := hc
    exact ih u hu (hwalk.snoc hu) (List.nodup_append.2 ⟨hnd, List.nodup_singleton _, by grind⟩) c hc

/-- A walk without repeats goes on to a completion, and is one itself if it cannot go on. -/
theorem exists_completion_of_isChain (trail : List ν) (hc : (node :: rest).IsChain g.Edge)
    (hnd : (trail ++ node :: rest).Nodup) :
    ∃ c ∈ g.completions trail node, trail ++ node :: rest <+: c.1 ∧
      ∀ v ∈ (node :: rest).getLast?, g.succs v = [] → c = (trail ++ node :: rest, .exit) := by
  have hmem : node ∉ trail := fun h => by
    rw [List.nodup_append] at hnd
    exact hnd.2.2 node h node List.mem_cons_self rfl
  induction rest generalizing trail node with
  | nil =>
    obtain ⟨c, cs, hcs⟩ := List.exists_cons_of_ne_nil (g.completions_ne_nil trail node)
    have hin : c ∈ g.completions trail node := by
      rw [hcs]
      exact List.mem_cons_self
    refine ⟨c, hin, (prefix_of_mem_completions hin).2 hmem, ?_⟩
    intro v hv hs
    obtain rfl : node = v := by simpa using hv
    rwa [completions_of_exit hmem hs, List.mem_singleton] at hin
  | cons u rest ih =>
    obtain ⟨hedge, hrest⟩ := List.isChain_cons_cons.1 hc
    have hs : g.succs node ≠ [] := List.ne_nil_of_mem hedge
    rw [List.append_cons] at hnd ⊢
    have hu : u ∉ trail ++ [node] := fun h => by
      rw [List.nodup_append] at hnd
      exact hnd.2.2 u h u List.mem_cons_self rfl
    obtain ⟨c, hin, hpre, hexit⟩ := ih _ hrest hnd hu
    refine ⟨c, ?_, hpre, ?_⟩
    · rw [completions_of_succs hmem hs]
      exact List.mem_flatMap.2 ⟨u, hedge, hin⟩
    · intro v hv
      exact hexit v (by rwa [List.getLast?_cons_cons] at hv)

/-- A walk without repeats goes on to a completion of the entry, and is one itself if it cannot
go on. -/
theorem exists_completion (he : g.entry = some e) (h : g.IsWalk w) (hnd : w.Nodup) :
    ∃ c ∈ g.completions [] e, w <+: c.1 ∧
      ∀ v ∈ w.getLast?, g.succs v = [] → c = (w, .exit) := by
  obtain ⟨⟨e', he', hhead⟩, hedges⟩ := h
  obtain rfl : e' = e := Option.some.inj (he'.symm.trans he)
  obtain ⟨rest, rfl⟩ := List.head?_eq_some_iff.1 hhead
  exact exists_completion_of_isChain [] hedges hnd

end Graph

end BarrierLowering
