import BarrierLowering.Proofs.Flow
import BarrierLowering.Proofs.Paths
import Mathlib.Data.Set.Card

/-!
# Every path once, in order

A path of the search is a walk without repeats that ends where the search cannot go on: the
last node has no successors, or one of its successors has been visited already. The same walk
can end before several such nodes, so a path is told apart by its walk *and* the node it comes
back to; the two together are a route. The search finds every route once, in the
lexicographic order of the choices at the branches, and numbers the routes without gaps.

## Main definitions

* `Route`, `Route.Runs` — a route, and what makes it one of a graph.
* `Route.choices` — the positions of the chosen successors.
* `Graph.Listed` — the entry reaches no more than finitely many nodes.
* `Graph.routesFrom` — the routes that go on from a trail, in the order of the search.

## Main results

* `Graph.mem_routesFrom_iff`, `Graph.pairwise_routesFrom` — the search finds exactly the
  routes, in lexicographic order.
* `Graph.delivers_routesFrom` — it shows them to every visitor that accepts them, and gives them
  consecutive numbers.
* `Graph.visitPaths_exact` — the visit and the list of all paths of a graph.
-/

namespace BarrierLowering

variable {ν σ β : Type}

/-! ### Routes -/

/-- A way through a graph that visits no node twice. -/
@[ext] structure Route (ν : Type) where
  walk : List ν
  /-- The visited node that comes next, if the route ends because of it. -/
  back : Option ν
  deriving DecidableEq

namespace Route

/-- How the path along a route runs and ends. -/
def course (r : Route ν) : List ν × PathEnd :=
  (r.walk, if r.back.isSome then .backEdge else .exit)

/-- The walk, and the node it comes back to. -/
def stops (r : Route ν) : List ν := r.walk ++ r.back.toList

/-- A route of the graph with the given entry and successors: it starts at the entry, follows
edges, visits no node twice, and ends where that is no longer possible. -/
structure Runs (r : Route ν) (entry : Option ν) (next : ν → List ν) : Prop where
  start : ∃ e, entry = some e ∧ r.walk.head? = some e
  edges : r.walk.IsChain fun u v => v ∈ next u
  nodup : r.walk.Nodup
  /-- A route that does not come back ends at a node without successors. -/
  exit : r.back = none → ∀ u ∈ r.walk.getLast?, next u = []
  /-- A route that comes back does so over an edge, to a node that it has visited. -/
  back : ∀ v ∈ r.back, v ∈ r.walk ∧ ∀ u ∈ r.walk.getLast?, v ∈ next u

/-- Whether a route runs depends only on the successors of the nodes on its walk. -/
theorem Runs.congr {r : Route ν} {entry : Option ν} {next next' : ν → List ν}
    (h : r.Runs entry next) (hnext : ∀ u ∈ r.walk, ∀ v, v ∈ next u ↔ v ∈ next' u) :
    r.Runs entry next' where
  start := h.start
  edges := h.edges.imp_of_mem_imp fun u v hu _ huv => (hnext u hu v).1 huv
  nodup := h.nodup
  exit hback u hu := by
    rw [List.eq_nil_iff_forall_not_mem]
    intro v hv
    have hmem := (hnext u (List.mem_of_getLast? hu) v).2 hv
    rw [h.exit hback u hu] at hmem
    exact List.not_mem_nil hmem
  back v hv := by
    obtain ⟨hwalk, hlast⟩ := h.back v hv
    exact ⟨hwalk, fun u hu => (hnext u (List.mem_of_getLast? hu) v).1 (hlast u hu)⟩

/-- A route that stops last at `v` either ends there or comes back there. -/
theorem Runs.eq_of_stops {r : Route ν} {entry : Option ν} {next : ν → List ν} {w : List ν} {v : ν}
    (h : r.Runs entry next) (hstops : r.stops = w ++ [v]) :
    r = ⟨w ++ [v], none⟩ ∨ r = ⟨w, some v⟩ ∧ v ∈ w := by
  rw [stops] at hstops
  cases hback : r.back with
  | none =>
    rw [hback, Option.toList_none, List.append_nil] at hstops
    exact .inl (Route.ext hstops hback)
  | some x =>
    rw [hback, Option.toList_some] at hstops
    obtain ⟨hwalk, hlast⟩ := List.append_inj' hstops rfl
    obtain rfl : x = v := List.singleton_inj.1 hlast
    exact .inr ⟨Route.ext hwalk hback, hwalk ▸ (h.back x hback).1⟩

end Route

/-- The position of each node of a list among the distinct successors of the node before. -/
def positions [DecidableEq ν] (next : ν → List ν) : List ν → List Nat
  | u :: v :: w => (next u).eraseDups.idxOf v :: positions next (v :: w)
  | _ => []

/-- The positions of the successors that a route takes. -/
def Route.choices [DecidableEq ν] (r : Route ν) (next : ν → List ν) : List Nat :=
  positions next r.stops

theorem positions_congr [DecidableEq ν] {next next' : ν → List ν} {w : List ν}
    (h : ∀ u ∈ w, (next u).eraseDups = (next' u).eraseDups) :
    positions next w = positions next' w := by
  fun_induction positions next w with
  | case1 u v w ih =>
    rw [positions, h u List.mem_cons_self, ih fun x hx => h x (List.mem_cons_of_mem _ hx)]
  | case2 w hshort => rw [positions]; exact hshort

theorem positions_append [DecidableEq ν] (next : ν → List ν) (w : List ν) (u v : ν)
    (rest : List ν) : positions next (w ++ u :: v :: rest) =
      positions next (w ++ [u]) ++ (next u).eraseDups.idxOf v :: positions next (v :: rest) := by
  induction w with
  | nil => rfl
  | cons a w ih =>
    cases w with
    | nil => rfl
    | cons b w =>
      simp only [List.cons_append] at ih ⊢
      rw [positions, ih, positions, List.cons_append]

namespace Graph

variable [DecidableEq ν] {g : Graph ν} {u v e node : ν} {w trail rest : List ν} {r : Route ν}

/-! ### The routes in the order of the search -/

/-- The routes that go on from `trail` to `node`, in the order of the search. -/
def routesFrom (g : Graph ν) (trail : List ν) (node : ν) : List (Route ν) :=
  if node ∈ trail then [⟨trail, some node⟩]
  else
    match _hsuccs : g.succs node with
    | [] => [⟨trail ++ [node], none⟩]
    | first :: others =>
      (first :: others).flatMap fun succ => g.routesFrom (trail ++ [node]) succ
termination_by (g.outside trail).length
decreasing_by
  refine g.length_outside_append_lt ?_ ‹node ∉ trail› List.mem_cons_self
  by_cases hnode : node ∈ g.nodes
  · exact hnode
  · simp [succs, hnode] at _hsuccs

theorem routesFrom_of_mem (h : node ∈ trail) :
    g.routesFrom trail node = [⟨trail, some node⟩] := by
  rw [routesFrom, if_pos h]

theorem routesFrom_of_exit (h : node ∉ trail) (hs : g.succs node = []) :
    g.routesFrom trail node = [⟨trail ++ [node], none⟩] := by
  rw [routesFrom, if_neg h]
  split
  · rfl
  · next hcons => rw [hs] at hcons; cases hcons

theorem routesFrom_of_succs (h : node ∉ trail) (hs : g.succs node ≠ []) :
    g.routesFrom trail node = (g.succs node).flatMap (g.routesFrom (trail ++ [node])) := by
  rw [routesFrom, if_neg h]
  split
  · next hnil => exact absurd hnil hs
  · next hcons => rw [hcons]

/-- The courses of the routes are the completions. -/
theorem map_course_routesFrom (g : Graph ν) (trail : List ν) (node : ν) :
    (g.routesFrom trail node).map Route.course = g.completions trail node := by
  refine completionInduction g (motive := fun trail node =>
    (g.routesFrom trail node).map Route.course = g.completions trail node) ?_ ?_ ?_ trail node
  · intro trail node hmem
    rw [routesFrom_of_mem hmem, completions_of_mem hmem]
    rfl
  · intro trail node hmem hs
    rw [routesFrom_of_exit hmem hs, completions_of_exit hmem hs]
    rfl
  · intro trail node hmem hs ih
    rw [routesFrom_of_succs hmem hs, completions_of_succs hmem hs, List.map_flatMap]
    exact List.flatMap_congr ih

/-- A route that the search finds goes on from the trail to the node. -/
theorem stops_of_mem_routesFrom (h : r ∈ g.routesFrom trail node) :
    ∃ rest, r.stops = trail ++ node :: rest := by
  refine completionInduction g (motive := fun trail node => ∀ r ∈ g.routesFrom trail node,
    ∃ rest, r.stops = trail ++ node :: rest) ?_ ?_ ?_ trail node r h
  · intro trail node hmem r hr
    rw [routesFrom_of_mem hmem, List.mem_singleton] at hr
    subst hr
    exact ⟨[], rfl⟩
  · intro trail node hmem hs r hr
    rw [routesFrom_of_exit hmem hs, List.mem_singleton] at hr
    subst hr
    exact ⟨[], List.append_nil _⟩
  · intro trail node hmem hs ih r hr
    rw [routesFrom_of_succs hmem hs, List.mem_flatMap] at hr
    obtain ⟨u, hu, hr⟩ := hr
    obtain ⟨rest, hrest⟩ := ih u hu r hr
    exact ⟨u :: rest, by rw [hrest, List.append_assoc, List.singleton_append]⟩

/-- What the search finds are routes. -/
theorem runs_of_mem_routesFrom (hstart : ∃ e, g.entry = some e ∧ (trail ++ [node]).head? = some e)
    (hedges : (trail ++ [node]).IsChain g.Edge) (hnd : trail.Nodup)
    (h : r ∈ g.routesFrom trail node) : r.Runs g.entry g.succs := by
  -- The induction is on the search. It keeps that the trail and the node behind it are a walk
  -- from the entry, and that the trail alone has no repeats.
  refine completionInduction g (motive := fun trail node =>
    (∃ e, g.entry = some e ∧ (trail ++ [node]).head? = some e) →
    (trail ++ [node]).IsChain g.Edge → trail.Nodup →
    ∀ r ∈ g.routesFrom trail node, r.Runs g.entry g.succs) ?_ ?_ ?_ trail node hstart hedges hnd r h
  · intro trail node hmem ⟨e, he, hhead⟩ hedges hnd r hr
    rw [routesFrom_of_mem hmem, List.mem_singleton] at hr
    subst hr
    rw [List.head?_append_of_ne_nil _ (List.ne_nil_of_mem hmem)] at hhead
    rw [List.isChain_append] at hedges
    refine ⟨⟨e, he, hhead⟩, hedges.1, hnd, nofun, ?_⟩
    intro v hv
    obtain rfl : node = v := Option.some.inj hv
    exact ⟨hmem, fun u hu => hedges.2.2 u hu node rfl⟩
  · intro trail node hmem hs hstart hedges hnd r hr
    rw [routesFrom_of_exit hmem hs, List.mem_singleton] at hr
    subst hr
    refine ⟨hstart, hedges, List.nodup_append.2 ⟨hnd, List.nodup_singleton _, by grind⟩, ?_, nofun⟩
    intro _ u hu
    obtain rfl : node = u := by simpa using hu
    exact hs
  · intro trail node hmem hs ih ⟨e, he, hhead⟩ hedges hnd r hr
    rw [routesFrom_of_succs hmem hs, List.mem_flatMap] at hr
    obtain ⟨u, hu, hr⟩ := hr
    refine ih u hu ⟨e, he, ?_⟩ ?_ ?_ r hr
    · rwa [List.head?_append_of_ne_nil _ (by simp)]
    · refine hedges.append (List.isChain_singleton u) fun x hx y hy => ?_
      obtain rfl : node = x := by simpa using hx
      obtain rfl : u = y := by simpa using hy
      exact hu
    · exact List.nodup_append.2 ⟨hnd, List.nodup_singleton _, by grind⟩

/-- The stops of a route follow edges. -/
theorem isChain_stops (h : r.Runs g.entry g.succs) : r.stops.IsChain g.Edge := by
  refine h.edges.append ?_ fun u hu v hv => ?_
  · cases r.back with
    | none => exact List.isChain_nil
    | some v => exact List.isChain_singleton v
  · obtain hback : r.back = some v := by simpa using hv
    exact (h.back v hback).2 u hu

/-- A walk without repeats is a route if an edge leads from its end back to it. -/
theorem runs_of_back (hw : g.IsWalk (w ++ [u])) (hnd : (w ++ [u]).Nodup) (hv : v ∈ w ++ [u])
    (huv : g.Edge u v) : (⟨w ++ [u], some v⟩ : Route ν).Runs g.entry g.succs := by
  refine ⟨hw.start, hw.edges, hnd, nofun, fun x hx => ?_⟩
  obtain rfl : v = x := Option.some.inj hx
  refine ⟨hv, fun y hy => ?_⟩
  obtain rfl : u = y := by simpa using hy
  exact huv

/-- A walk without repeats that goes on to where it has been becomes a route on the way. -/
theorem exists_route_of_isChain (hw : g.IsWalk (w ++ [u])) (hnd : (w ++ [u]).Nodup)
    (hv : v ∈ w ++ [u]) (hc : (u :: (rest ++ [v])).IsChain g.Edge) :
    ∃ (r : Route ν) (more : List ν), r.Runs g.entry g.succs ∧ r.walk = w ++ [u] ++ more ∧
      more ⊆ rest := by
  induction rest generalizing w u with
  | nil =>
    exact ⟨_, [], runs_of_back hw hnd hv (List.isChain_pair.1 hc), (List.append_nil _).symm,
      List.Subset.refl _⟩
  | cons x rest ih =>
    obtain ⟨hux, hc⟩ := List.isChain_cons_cons.1 hc
    by_cases hx : x ∈ w ++ [u]
    · -- it comes back earlier
      exact ⟨_, [], runs_of_back hw hnd hx hux, (List.append_nil _).symm, List.nil_subset _⟩
    · have hnd' : (w ++ [u] ++ [x]).Nodup :=
        List.nodup_append.2 ⟨hnd, List.nodup_singleton x, by grind⟩
      obtain ⟨r, more, hr, hwalk, hmore⟩ :=
        ih (hw.snoc hux) hnd' (List.mem_append_left _ hv) hc
      exact ⟨r, x :: more, hr, by rw [hwalk, List.append_assoc, List.singleton_append],
        List.cons_subset_cons x hmore⟩

/-- The search finds every route that goes on from the trail. -/
theorem mem_routesFrom_of_runs (h : r.Runs g.entry g.succs)
    (hstops : r.stops = trail ++ node :: rest) : r ∈ g.routesFrom trail node := by
  have hedge : ∀ {trail node u rest}, r.stops = trail ++ node :: u :: rest → g.Edge node u := by
    intro trail node u rest hstops
    have hchain := isChain_stops h
    rw [hstops] at hchain
    exact (List.isChain_cons_cons.1 hchain.right_of_append).1
  -- The search moves along the route one stop at a time, so the rest of the stops is general.
  refine completionInduction g (motive := fun trail node => ∀ rest,
    r.stops = trail ++ node :: rest → r ∈ g.routesFrom trail node) ?_ ?_ ?_ trail node rest hstops
  · intro trail node hmem rest hstops
    -- The node is on the trail already, so it is not on the walk behind it.
    have hnot : ∀ rest, r.walk ≠ trail ++ node :: rest := by
      intro rest hwalk
      have hnd := h.nodup
      rw [hwalk, List.nodup_append] at hnd
      exact hnd.2.2 node hmem node List.mem_cons_self rfl
    rw [routesFrom_of_mem hmem, List.mem_singleton]
    rcases List.eq_nil_or_concat rest with rfl | ⟨rest, x, rfl⟩
    · rcases h.eq_of_stops hstops with rfl | ⟨rfl, -⟩
      · exact absurd rfl (hnot [])
      · rfl
    · rw [List.concat_eq_append, ← List.cons_append, ← List.append_assoc] at hstops
      rcases h.eq_of_stops hstops with rfl | ⟨rfl, -⟩
      · exact absurd (List.append_assoc _ _ _) (hnot (rest ++ [x]))
      · exact absurd rfl (hnot rest)
  · intro trail node hmem hs rest hstops
    rw [routesFrom_of_exit hmem hs, List.mem_singleton]
    cases rest with
    | nil =>
      rcases h.eq_of_stops hstops with rfl | ⟨rfl, hnode⟩
      · rfl
      · exact absurd hnode hmem
    | cons u rest =>
      have hnil := hedge hstops
      rw [Edge, hs] at hnil
      cases hnil
  · intro trail node hmem hs ih rest hstops
    rw [routesFrom_of_succs hmem hs, List.mem_flatMap]
    cases rest with
    | nil =>
      rcases h.eq_of_stops hstops with rfl | ⟨rfl, hnode⟩
      · exact absurd (h.exit rfl node (by simp)) hs
      · exact absurd hnode hmem
    | cons u rest =>
      have hu := hedge hstops
      exact ⟨u, hu, ih u hu rest (by rw [hstops, List.append_assoc]; rfl)⟩

/-- **The search finds exactly the routes.** -/
theorem mem_routesFrom_iff (he : g.entry = some e) :
    r ∈ g.routesFrom [] e ↔ r.Runs g.entry g.succs := by
  constructor
  · exact runs_of_mem_routesFrom ⟨e, he, rfl⟩ (List.isChain_singleton e) List.nodup_nil
  · intro h
    obtain ⟨e', he', hhead⟩ := h.start
    obtain rfl : e' = e := Option.some.inj (he'.symm.trans he)
    obtain ⟨rest, hrest⟩ := List.head?_eq_some_iff.1 hhead
    have hstops : r.stops = [] ++ e' :: (rest ++ r.back.toList) := by
      rw [Route.stops, hrest, List.nil_append, List.cons_append]
    exact mem_routesFrom_of_runs h hstops

/-- **The search finds the routes in the lexicographic order of their choices.** -/
theorem pairwise_routesFrom (g : Graph ν) (trail : List ν) (node : ν) :
    (g.routesFrom trail node).Pairwise fun r r' => r.choices g.succs < r'.choices g.succs := by
  refine completionInduction g (motive := fun trail node => (g.routesFrom trail node).Pairwise
    fun r r' => r.choices g.succs < r'.choices g.succs) ?_ ?_ ?_ trail node
  · intro trail node hmem
    rw [routesFrom_of_mem hmem]
    exact List.pairwise_singleton _ _
  · intro trail node hmem hs
    rw [routesFrom_of_exit hmem hs]
    exact List.pairwise_singleton _ _
  · intro trail node hmem hs ih
    rw [routesFrom_of_succs hmem hs, List.pairwise_flatMap]
    refine ⟨fun u hu => ih u hu, ?_⟩
    -- Routes through different successors part at this node.
    have hchoices : ∀ u, ∀ r ∈ g.routesFrom (trail ++ [node]) u, ∃ rest, r.choices g.succs =
        positions g.succs (trail ++ [node]) ++ (g.succs node).idxOf u :: rest := by
      intro u r hr
      obtain ⟨rest, hrest⟩ := stops_of_mem_routesFrom hr
      refine ⟨positions g.succs (u :: rest), ?_⟩
      rw [Route.choices, hrest, List.append_assoc, List.singleton_append, positions_append,
        eraseDups_eq_self (g.nodup_succs node)]
    rw [List.pairwise_iff_getElem]
    intro i j hi hj hij r hr r' hr'
    obtain ⟨rest, hrest⟩ := hchoices _ r hr
    obtain ⟨rest', hrest'⟩ := hchoices _ r' hr'
    rw [hrest, hrest', (g.nodup_succs node).idxOf_getElem, (g.nodup_succs node).idxOf_getElem]
    exact List.append_left_lt (List.cons_lt_cons_iff.2 (.inl hij))

/-! ### What a visitor is shown -/

end Graph

/-- A visitor that never breaks off. -/
def Visitor.Patient (visitor : Visitor ν σ β) : Prop := ∀ s p, (visitor s p).2 = none

/-- The state of a visitor after it has looked at some paths, one after another. -/
def Visitor.watch (visitor : Visitor ν σ β) (s : σ) (ps : List (Path ν)) : σ :=
  ps.foldl (fun s p => (visitor s p).1) s

/-- A part of a search, for every limit and every visitor. -/
abbrev Search (ν : Type) :=
  ∀ (σ β : Type), Nat → Visitor ν σ β → Visit σ → VisitStep σ β (Visit σ)

/-- A visitor that never breaks off accepts all paths. -/
theorem Visitor.Patient.accepts {visitor : Visitor ν σ β} (h : visitor.Patient) (s : σ)
    (ps : List (Path ν)) : visitor.Accepts s ps (visitor.watch s ps) := by
  induction ps generalizing s with
  | nil => exact .nil s
  | cons p ps ih => exact .cons (Prod.ext rfl (h s p)) (ih _)

/-- Collects the paths, the last one first. -/
def Visitor.collect : Visitor ν (List (Path ν)) Empty := fun paths path => (path :: paths, none)

theorem Visitor.patient_collect : (Visitor.collect : Visitor ν _ _).Patient := fun _ _ => rfl

theorem Visitor.watch_collect (ps : List (Path ν)) : Visitor.collect.watch [] ps = ps.reverse :=
  List.foldl_flip_cons_eq_append.trans (by simp)

/-- A part of a search shows paths with these courses, in this order, to every visitor that
accepts them. They have the given numbers and those that the search takes on its way, one after
another; it goes on to its end if the limit leaves it as many. -/
def Delivers (search : Search ν) (numbers : List Nat) (courses : List (List ν × PathEnd)) : Prop :=
  ∀ next, ∃ (ps : List (Path ν)) (taken : Nat),
    (∀ (σ β : Type) (limit : Nat) (visitor : Visitor ν σ β) (s s' : σ), visitor.Accepts s ps s' →
      next + taken ≤ limit → search σ β limit visitor ⟨next, s⟩ = .ok ⟨next + taken, s'⟩) ∧
    ps.map Path.course = courses ∧ (ps.map Path.id).Perm (numbers ++ List.range' next taken)

theorem delivers_show (path : Path ν) :
    Delivers (fun _ _ _ visitor v => v.show visitor path) [path.id] [path.course] := by
  intro next
  refine ⟨[path], 0, fun σ β limit visitor s s' haccepts _ => ?_, rfl, .refl _⟩
  obtain ⟨_, hstep, ⟨⟩⟩ := Visitor.accepts_cons_iff.1 haccepts
  simp only [Visit.show, hstep, Nat.add_zero]

/-- A part of a search after another one takes the numbers that follow. -/
theorem Delivers.append {search₁ search₂ : Search ν} {numbers₁ numbers₂ : List Nat}
    {courses₁ courses₂ : List (List ν × PathEnd)} (h₁ : Delivers search₁ numbers₁ courses₁)
    (h₂ : Delivers search₂ numbers₂ courses₂) :
    Delivers (fun σ β limit visitor v => search₁ σ β limit visitor v >>= search₂ σ β limit visitor)
      (numbers₁ ++ numbers₂) (courses₁ ++ courses₂) := by
  intro next
  obtain ⟨ps, taken, hps, hcourses, hids⟩ := h₁ next
  obtain ⟨qs, taken', hqs, hcourses', hids'⟩ := h₂ (next + taken)
  refine ⟨ps ++ qs, taken + taken', fun σ β limit visitor s s'' haccepts hle => ?_, ?_, ?_⟩
  · obtain ⟨s', haccepts, haccepts'⟩ := Visitor.accepts_append_iff.1 haccepts
    have hfirst := hps σ β limit visitor s s' haccepts (by omega)
    have hsecond := hqs σ β limit visitor s' s'' haccepts' (by omega)
    simp only [hfirst]
    refine hsecond.trans ?_
    rw [Nat.add_assoc]
  · rw [List.map_append, hcourses, hcourses']
  · -- the given numbers come first, and the taken ones behind them in their order
    rw [List.map_append, ← List.range'_append_1]
    refine (hids.append hids').trans ?_
    simp only [List.append_assoc]
    exact (List.perm_append_comm_assoc _ _ _).append_left _

/-- A search through some nodes, each with its number, delivers the paths of all nodes. -/
theorem delivers_foldlM (search : ν × Nat → Search ν) (courses : ν → List (List ν × PathEnd))
    (l : List (ν × Nat)) (h : ∀ x ∈ l, Delivers (search x) [x.2] (courses x.1)) :
    Delivers (fun σ β limit visitor v => l.foldlM (fun v x => search x σ β limit visitor v) v)
      (l.map (·.2)) ((l.map (·.1)).flatMap courses) := by
  induction l with
  | nil =>
    intro next
    refine ⟨[], 0, fun σ β limit visitor s s' haccepts _ => ?_, rfl, .refl _⟩
    cases haccepts
    rfl
  | cons x l ih =>
    have hfirst := h x List.mem_cons_self
    have hrest := ih fun y hy => h y (List.mem_cons_of_mem _ hy)
    simp only [List.foldlM_cons]
    exact hfirst.append hrest

namespace Graph

variable [DecidableEq ν] {g : Graph ν} {u v e node : ν} {w trail rest : List ν} {r : Route ν}

/-- The search from a node, with the number of its first path. -/
def search (g : Graph ν) (trail : List ν) (node : ν) (id : Nat) : Search ν :=
  fun _ _ limit visitor v => g.visitFrom limit visitor id trail node v

/-- The search from a node delivers its routes. The first of them keeps the number of the
trail, and each other one takes a new number. -/
theorem delivers_routesFrom (g : Graph ν) (trail : List ν) (node : ν) (id : Nat) :
    Delivers (g.search trail node id) [id] ((g.routesFrom trail node).map Route.course) := by
  refine completionInduction g (motive := fun trail node => ∀ id,
    Delivers (g.search trail node id) [id] ((g.routesFrom trail node).map Route.course))
    ?_ ?_ ?_ trail node id
  · intro trail node hmem id
    have hsearch : g.search trail node id =
        fun _ _ _ visitor v => v.show visitor ⟨id, trail, .backEdge⟩ := by
      funext σ β limit visitor v
      rw [search, visitFrom_of_mem hmem]
    rw [hsearch, routesFrom_of_mem hmem]
    exact delivers_show _
  · intro trail node hmem hs id
    have hsearch : g.search trail node id =
        fun _ _ _ visitor v => v.show visitor ⟨id, trail ++ [node], .exit⟩ := by
      funext σ β limit visitor v
      rw [search, visitFrom_of_exit hmem hs]
    rw [hsearch, routesFrom_of_exit hmem hs]
    exact delivers_show _
  · -- at a branch, the first successor keeps the number, and the others take the next ones
    intro trail node hmem hs ih id next
    obtain ⟨first, others, hcons⟩ := List.exists_cons_of_ne_nil hs
    let l := (first, id) :: others.zipIdx next
    have hnodes : l.map (·.1) = g.succs node := by
      rw [List.map_cons, List.zipIdx_map_fst, hcons]
    have hnumbers : l.map (·.2) = id :: List.range' next others.length := by
      rw [List.map_cons, List.zipIdx_map_snd]
    -- the branches are numbered first, and the search behind them takes the numbers that follow
    obtain ⟨ps, taken, hps, hcourse, hids⟩ := delivers_foldlM
      (fun x => g.search (trail ++ [node]) x.1 x.2)
      (fun u => (g.routesFrom (trail ++ [node]) u).map Route.course) l
      (fun x hx => ih x.1 (edge_of_mem_numbered hcons hx) x.2) (next + others.length)
    refine ⟨ps, others.length + taken, fun σ β limit visitor s s' haccepts hle => ?_, ?_, ?_⟩
    · rw [search, visitFrom_of_succs hmem hcons, if_neg (by dsimp only; omega), ← Nat.add_assoc]
      exact hps σ β limit visitor s s' haccepts (by omega)
    · rw [hcourse, routesFrom_of_succs hmem hs, List.map_flatMap, hnodes]
    · rwa [hnumbers, List.cons_append, List.range'_append_1] at hids

/-! ### Whole visits -/

/-- The routes of a graph, in the order of the search. -/
def routes (g : Graph ν) : List (Route ν) :=
  match g.entry with
  | none => []
  | some entry => g.routesFrom [] entry

theorem map_course_routes (he : g.entry = some e) :
    g.routes.map Route.course = g.completions [] e := by
  rw [routes, he]
  exact map_course_routesFrom g [] e

theorem mem_routes_iff (g : Graph ν) (r : Route ν) : r ∈ g.routes ↔ r.Runs g.entry g.succs := by
  unfold routes
  split
  · next he =>
    rw [he]
    refine iff_of_false List.not_mem_nil fun h => ?_
    obtain ⟨e, he, -⟩ := h.start
    cases he
  · next entry he => exact mem_routesFrom_iff he

theorem pairwise_routes (g : Graph ν) :
    g.routes.Pairwise fun r r' => r.choices g.succs < r'.choices g.succs := by
  unfold routes
  split
  · exact List.Pairwise.nil
  · exact pairwise_routesFrom g _ _

/-- A visit shows the routes in their order, numbered without gaps, and is complete if the visitor
accepts them. -/
theorem exists_accepted_paths (g : Graph ν) :
    ∃ ps : List (Path ν), ps.map Path.course = g.routes.map Route.course ∧
      (ps.map Path.id).Perm (List.range g.routes.length) ∧
      ∀ (σ β : Type) (limit : Nat) (visitor : Visitor ν σ β) (s s' : σ),
        visitor.Accepts s ps s' → g.routes.length ≤ limit →
        g.visitPaths limit visitor s = (s', .complete) := by
  unfold routes
  cases he : g.entry with
  | none =>
    refine ⟨[], rfl, .refl _, fun σ β limit visitor s s' haccepts _ => ?_⟩
    cases haccepts
    rw [visitPaths, he]
  | some entry =>
    obtain ⟨ps, taken, hps, hcourse, hids⟩ := g.delivers_routesFrom [] entry 0 1
    have hlength : (g.routesFrom [] entry).length = taken + 1 := by
      have hcount := hids.length_eq
      rw [List.length_map, List.length_append, List.length_range', List.length_singleton] at hcount
      rw [← List.length_map Route.course, ← hcourse, List.length_map, hcount, Nat.add_comm]
    dsimp only
    rw [hlength]
    refine ⟨ps, hcourse, ?_, fun σ β limit visitor s s' haccepts hle => ?_⟩
    · rwa [List.range_eq_range', List.range'_succ]
    · have hvisit := hps σ β limit visitor s s' haccepts (by omega)
      rw [search] at hvisit
      have hlimit : limit ≠ 0 := by omega
      simp only [visitPaths, he, if_neg hlimit, hvisit]

/-- A visitor that never breaks off is shown all routes. -/
theorem exists_paths (g : Graph ν) :
    ∃ ps : List (Path ν), ps.map Path.course = g.routes.map Route.course ∧
      (ps.map Path.id).Perm (List.range g.routes.length) ∧
      ∀ (σ β : Type) (limit : Nat) (visitor : Visitor ν σ β) (s : σ), visitor.Patient →
        g.routes.length ≤ limit →
        g.visitPaths limit visitor s = (visitor.watch s ps, .complete) := by
  obtain ⟨ps, hcourse, hids, hvisit⟩ := g.exists_accepted_paths
  exact ⟨ps, hcourse, hids, fun σ β limit visitor s hpatient hle =>
    hvisit σ β limit visitor s _ (hpatient.accepts s ps) hle⟩

/-- All paths are what is collected, in the order of their numbers. -/
theorem enumerate_eq (g : Graph ν) (limit : Nat) : g.enumerate limit =
    match g.visitPaths limit .collect [] with
    | (paths, .complete) => some (paths.mergeSort fun a b => a.id ≤ b.id)
    | (_, .overLimit) => none :=
  rfl

/-- The list of all paths has those that a visit shows, in the order of their numbers. -/
theorem exists_enumerate {limit n : Nat} {ps : List (Path ν)}
    (hvisit : ∀ (σ β : Type) (visitor : Visitor ν σ β) (s : σ), visitor.Patient →
      g.visitPaths limit visitor s = (visitor.watch s ps, .complete))
    (hids : (ps.map Path.id).Perm (List.range n)) :
    ∃ listed, g.enumerate limit = some listed ∧ listed.Perm ps ∧
      listed.map Path.id = List.range n := by
  let byId : Path ν → Path ν → Bool := fun a b => a.id ≤ b.id
  refine ⟨ps.reverse.mergeSort byId, ?_, (List.mergeSort_perm _ _).trans (List.reverse_perm _), ?_⟩
  · rw [enumerate_eq, hvisit _ _ _ _ Visitor.patient_collect, Visitor.watch_collect]
  · -- two sorted lists of the same numbers
    have hsorted : (ps.reverse.mergeSort byId).Pairwise fun a b => byId a b = true :=
      List.pairwise_mergeSort
        (fun a b c hab hbc => by simp only [byId, decide_eq_true_eq] at *; omega)
        (fun a b => by simp only [byId, Bool.or_eq_true, decide_eq_true_eq]; omega) ps.reverse
    have hnumbers : ((ps.reverse.mergeSort byId).map Path.id).Pairwise (· ≤ ·) :=
      List.pairwise_map.2 (hsorted.imp fun h => of_decide_eq_true h)
    have hperm : ((ps.reverse.mergeSort byId).map Path.id).Perm (List.range n) :=
      (((List.mergeSort_perm _ _).trans (List.reverse_perm _)).map _).trans hids
    exact hperm.eq_of_pairwise (fun a b _ _ => Nat.le_antisymm) hnumbers List.pairwise_le_range

/-! ### Graphs that reach finitely many nodes -/

/-- Every node that the entry reaches is listed, unless no edge leads on from it. -/
def Listed (g : Graph ν) : Prop :=
  ∀ e v, g.entry = some e → Relation.ReflTransGen (fun u v => v ∈ g.edges u) e v →
    g.edges v ≠ [] → v ∈ g.nodes

omit [DecidableEq ν] in
/-- The control flow of a function is listed. -/
theorem listed_graph (f : Func) : f.graph.Listed := by
  intro e b _ _ hne
  by_contra hb
  -- a block that does not exist has no successors
  refine hne ?_
  rw [Func.graph]
  dsimp only
  rw [Func.successors, Func.block?_eq_none_iff.2 hb]

/-- The search follows edges of the graph. -/
theorem Edge.mem_edges (h : g.Edge u v) : v ∈ g.edges u := by
  have hu := h.mem_nodes
  rwa [Edge, succs, if_pos hu, List.mem_eraseDups] at h

/-- The distinct successors of a node that the entry reaches. -/
theorem Listed.succs_eq (hg : g.Listed) (he : g.entry = some e)
    (hv : Relation.ReflTransGen (fun u v => v ∈ g.edges u) e v) :
    g.succs v = (g.edges v).eraseDups := by
  unfold succs
  split
  · rfl
  · next hnot =>
    have hnil : g.edges v = [] := by
      by_contra hne
      exact hnot (hg e v he hv hne)
    rw [hnil]
    rfl

/-- The distinct successors of a node on a walk from the entry. -/
theorem Listed.succs_eq_of_mem (hg : g.Listed) (he : g.entry = some e) (hw : w.head? = some e)
    (hedges : w.IsChain fun u v => v ∈ g.edges u) (hu : u ∈ w) :
    g.succs u = (g.edges u).eraseDups := by
  obtain ⟨rest, rfl⟩ := List.head?_eq_some_iff.1 hw
  refine hg.succs_eq he ?_
  rcases List.mem_cons.1 hu with rfl | hu
  · exact .refl
  · have hreach := List.IsChain.rel_cons (R := Relation.ReflTransGen fun u v => v ∈ g.edges u)
      (hedges.imp fun _ _ => .single) hu
    exact hreach

/-- The successors that the search sees at the nodes of a route are those of the graph. -/
theorem Listed.succs_eq_of_runs (hg : g.Listed) (h : r.Runs g.entry g.succs) :
    ∀ u ∈ r.walk, g.succs u = (g.edges u).eraseDups := by
  obtain ⟨e, he, hw⟩ := h.start
  exact fun u => hg.succs_eq_of_mem he hw (h.edges.imp fun _ _ => Edge.mem_edges)

/-- The routes over the edges are the routes over the distinct successors. -/
theorem Listed.runs_iff (hg : g.Listed) : r.Runs g.entry g.edges ↔ r.Runs g.entry g.succs := by
  constructor
  · intro h
    obtain ⟨e, he, hw⟩ := h.start
    refine h.congr fun u hu v => ?_
    rw [hg.succs_eq_of_mem he hw h.edges hu, List.mem_eraseDups]
  · intro h
    refine h.congr fun u hu v => ?_
    rw [hg.succs_eq_of_runs h u hu, List.mem_eraseDups]

/-- A route takes the same positions among the edges as among the distinct successors. -/
theorem Listed.choices_eq (hg : g.Listed) (h : r.Runs g.entry g.succs) :
    r.choices g.edges = r.choices g.succs := by
  refine positions_congr fun u hu => ?_
  have hwalk : u ∈ r.walk := by
    rcases List.mem_append.1 hu with hu | hu
    · exact hu
    · exact (h.back u (Option.mem_toList.1 hu)).1
  rw [hg.succs_eq_of_runs h u hwalk, eraseDups_eq_self (nodup_eraseDups _)]

/-- The search finds each route once, so that there are as many as it finds. -/
theorem Listed.encard_runs (hg : g.Listed) :
    {r : Route ν | r.Runs g.entry g.edges}.encard = g.routes.length := by
  have hnd : g.routes.Nodup := by
    refine g.pairwise_routes.imp fun {r r'} hlt heq => ?_
    exact List.lt_irrefl _ (heq ▸ hlt)
  have hset : {r : Route ν | r.Runs g.entry g.edges} = g.routes.toFinset := by
    rw [List.coe_toFinset]
    exact Set.ext fun r => hg.runs_iff.trans (g.mem_routes_iff r).symm
  rw [hset, Set.encard_coe_eq_coe_finsetCard, List.toFinset_card_of_nodup hnd]

/-- What it means that some paths are all paths of a graph: their courses are its routes, each
once and in lexicographic order, their numbers have no gaps, and within any sufficient limit
they are what a visitor sees and what the list of all paths holds. -/
structure Exhausts (g : Graph ν) (routes : List (Route ν)) (paths : List (Path ν)) : Prop where
  mem_routes : ∀ r, r ∈ routes ↔ r.Runs g.entry g.edges
  nodup : routes.Nodup
  order : routes.Pairwise fun r r' => r.choices g.edges < r'.choices g.edges
  courses : paths.map Path.course = routes.map Route.course
  numbers : (paths.map Path.id).Perm (List.range routes.length)
  visit : ∀ (σ β : Type) (limit : Nat) (visitor : Visitor ν σ β) (s : σ), visitor.Patient →
    routes.length ≤ limit → g.visitPaths limit visitor s = (visitor.watch s paths, .complete)
  listed : ∀ limit, routes.length ≤ limit → ∃ listed, g.enumerate limit = some listed ∧
    listed.Perm paths ∧ listed.map Path.id = List.range routes.length

/-- **The search over the paths of a graph is exact.** Every graph whose entry reaches finitely
many nodes is listed, with these nodes in its list. -/
theorem visitPaths_exact (g : Graph ν) (hg : g.Listed) :
    ∃ routes paths, g.Exhausts routes paths := by
  obtain ⟨paths, hcourse, hids, hvisit⟩ := g.exists_paths
  have hrun : ∀ r ∈ g.routes, r.Runs g.entry g.succs := fun r hr => (g.mem_routes_iff r).1 hr
  have horder : g.routes.Pairwise fun r r' => r.choices g.edges < r'.choices g.edges :=
    g.pairwise_routes.imp_of_mem fun {r r'} hr hr' hlt => by
      rwa [hg.choices_eq (hrun r hr), hg.choices_eq (hrun r' hr')]
  refine ⟨g.routes, paths, ⟨fun r => (g.mem_routes_iff r).trans hg.runs_iff.symm, ?_, horder,
    hcourse, hids, hvisit, fun limit hle => ?_⟩⟩
  · refine g.pairwise_routes.imp fun {r r'} hlt heq => ?_
    exact List.lt_irrefl _ (heq ▸ hlt)
  · exact exists_enumerate
      (fun σ β visitor s hpatient => hvisit σ β limit visitor s hpatient hle) hids

/-- A graph with two branches behind each other: its last node leads back to the entry and to
the second branch. -/
def twoLoops : Graph Nat :=
  ⟨some 0, [0, 1, 2, 3], fun
    | 0 => [1, 2, 1]
    | 1 => [3]
    | 2 => [3]
    | 3 => [0, 2]
    | _ => []⟩

theorem listed_twoLoops : twoLoops.Listed := by
  intro e v _ _ hne
  match v with
  | 0 | 1 | 2 | 3 => decide
  | _ + 4 => exact absurd rfl hne

theorem visitPaths_exact_twoLoops :
    twoLoops.Listed ∧ ∃ routes paths, twoLoops.Exhausts routes paths :=
  ⟨listed_twoLoops, visitPaths_exact twoLoops listed_twoLoops⟩

example : (twoLoops.enumerate 4).map (·.map Path.course) = some
    [([0, 1, 3], .backEdge), ([0, 2, 3], .backEdge), ([0, 1, 3, 2], .backEdge),
      ([0, 2, 3], .backEdge)] := by
  cbv

end Graph

end BarrierLowering
