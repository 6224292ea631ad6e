/-!
# Finite directed graphs

The control flow of a function is a graph with at most one entry. The searches of this
library see no more of a function than that.

## Main definitions

* `Graph` — a graph, given by its entry, its nodes and its edges.
* `Graph.succs` — the distinct successors of a node.
* `Graph.spread` — a breadth-first search in which each node takes a label from the node
  that found it.
* `Graph.reachableFrom`, `Graph.reachable` — what the search finds.
* `Graph.Hunt`, `Graph.onCycle` — a depth-first search for a way back to a node.
-/

namespace BarrierLowering

/-- Filtering by a test that fails more often gives a shorter list. -/
theorem length_filter_lt_length_filter {α : Type} {p q : α → Bool} {l : List α}
    (hpq : ∀ a ∈ l, p a = true → q a = true) {w : α} (hw : w ∈ l) (hp : p w = false)
    (hq : q w = true) : (l.filter p).length < (l.filter q).length := by
  obtain ⟨l₁, l₂, rfl⟩ := List.append_of_mem hw
  -- On either side of `w` the list cannot get longer.
  have hle : ∀ l' : List α, (∀ a ∈ l', a ∈ l₁ ++ w :: l₂) →
      (l'.filter p).length ≤ (l'.filter q).length := by
    intro l' hl'
    rw [← List.countP_eq_length_filter, ← List.countP_eq_length_filter]
    exact List.countP_mono_left fun a ha => hpq a (hl' a ha)
  have h₁ := hle l₁ fun a ha => List.mem_append_left _ ha
  have h₂ := hle l₂ fun a ha => List.mem_append_right _ (List.mem_cons_of_mem _ ha)
  have hpw : ((w :: l₂).filter p) = l₂.filter p := List.filter_cons_of_neg (by rw [hp]; decide)
  have hqw : ((w :: l₂).filter q) = w :: l₂.filter q := List.filter_cons_of_pos hq
  rw [List.filter_append, List.filter_append, hpw, hqw, List.length_append, List.length_append,
    List.length_cons]
  omega

/-- What is left of a list without its repeats has no repeats. -/
theorem nodup_eraseDups {α : Type} [DecidableEq α] (l : List α) : l.eraseDups.Nodup :=
  match l with
  | [] => List.Pairwise.nil
  | a :: l => by
    rw [List.eraseDups_cons, List.nodup_cons]
    exact ⟨by simp [List.mem_eraseDups], nodup_eraseDups _⟩
termination_by l.length
decreasing_by
  have := List.length_filter_le (fun b => !b == a) l
  simp only [List.length_cons]
  omega

/-- A finite directed graph. A node that is not listed has no successors. -/
structure Graph (ν : Type) where
  /-- Where walks start, if there is anywhere to start. -/
  entry : Option ν
  nodes : List ν
  /-- The targets of the edges out of a node, in edge order, repeats allowed. -/
  edges : ν → List ν

namespace Graph

variable {ν α : Type} [DecidableEq ν]

/-- The distinct successors of a node, in the order of their first edge. -/
def succs (g : Graph ν) (v : ν) : List ν :=
  if v ∈ g.nodes then (g.edges v).eraseDups else []

/-- The successors of a node are distinct. -/
theorem nodup_succs (g : Graph ν) (v : ν) : (g.succs v).Nodup := by
  unfold succs
  split
  · exact nodup_eraseDups _
  · exact List.Pairwise.nil

/-- The nodes outside a list. -/
def outside (g : Graph ν) (known : List ν) : List ν := g.nodes.filter fun w => w ∉ known

/-- A node that becomes known leaves fewer nodes outside. -/
theorem length_outside_append_lt (g : Graph ν) {known found : List ν} {w : ν}
    (hw : w ∈ g.nodes) (hk : w ∉ known) (hf : w ∈ found) :
    (g.outside (known ++ found)).length < (g.outside known).length := by
  refine length_filter_lt_length_filter (fun a _ h => ?_) hw ?_ ?_
  · simp_all
  · simp [hf]
  · simp [hk]

/-- The successors of `v` among the nodes outside a list. -/
def discover (g : Graph ν) (known : List ν) (v : ν) : List ν :=
  (g.succs v).filter fun w => w ∈ g.nodes ∧ w ∉ known

/-- Each of several distinct nodes that become known is one less outside. -/
theorem length_outside_append_add_le (g : Graph ν) {known found : List ν} (hnodup : found.Nodup)
    (hfound : ∀ w ∈ found, w ∈ g.nodes ∧ w ∉ known) :
    (g.outside (known ++ found)).length + found.length ≤ (g.outside known).length := by
  induction found generalizing known with
  | nil => simp
  | cons w found ih =>
    have hw := hfound w List.mem_cons_self
    have hlt := g.length_outside_append_lt hw.1 hw.2 (List.mem_singleton.2 rfl)
    obtain ⟨hnot, hnodup⟩ := List.nodup_cons.1 hnodup
    -- The others are still outside when `w` is known, because none of them is `w`.
    have hrest : ∀ u ∈ found, u ∈ g.nodes ∧ u ∉ known ++ [w] := by
      intro u hu
      have h := hfound u (List.mem_cons_of_mem _ hu)
      refine ⟨h.1, fun hmem => ?_⟩
      rcases List.mem_append.1 hmem with hk | huw
      · exact h.2 hk
      · exact hnot (List.mem_singleton.1 huw ▸ hu)
    have hle := ih hnodup hrest
    rw [List.append_assoc, List.singleton_append] at hle
    rw [List.length_cons]
    omega

/-- What is discovered is no longer outside. -/
theorem length_outside_append_discover_le (g : Graph ν) (known : List ν) (v : ν) :
    (g.outside (known ++ g.discover known v)).length + (g.discover known v).length ≤
      (g.outside known).length := by
  refine g.length_outside_append_add_le ((g.nodup_succs v).filter _) fun w hw => ?_
  simpa using (List.mem_filter.1 hw).2

/-- Once a node is known, the nodes outside have its successors less between them. -/
theorem length_flatMap_outside_cons_le (g : Graph ν) {known : List ν} {u : ν} (hu : u ∉ known) :
    ((g.outside (u :: known)).flatMap g.succs).length + (g.succs u).length ≤
      ((g.outside known).flatMap g.succs).length := by
  have hothers : g.outside (u :: known) = (g.outside known).filter fun w => !decide (w = u) := by
    rw [outside, outside, List.filter_filter]
    refine List.filter_congr fun w _ => ?_
    simp
  have hown : (g.succs u).length ≤
      (((g.outside known).filter fun w => w = u).flatMap g.succs).length := by
    by_cases hnode : u ∈ g.nodes
    · have hmem : u ∈ (g.outside known).filter fun w => w = u :=
        List.mem_filter.2 ⟨List.mem_filter.2 ⟨hnode, decide_eq_true hu⟩, decide_eq_true rfl⟩
      obtain ⟨l₁, l₂, hsplit⟩ := List.append_of_mem hmem
      rw [hsplit, List.flatMap_append, List.flatMap_cons, List.length_append, List.length_append]
      omega
    · rw [succs, if_neg hnode]
      exact Nat.zero_le _
  have hall := ((List.filter_append_perm (fun w => decide (w = u)) (g.outside known)).flatMap_right
    g.succs).length_eq
  rw [List.flatMap_append, List.length_append, ← hothers] at hall
  omega

/-! ### Search -/

/-- The labelled nodes, without their labels. -/
def unlabel (labelled : List (ν × α)) : List ν := labelled.map (·.1)

/-- Search breadth first: `done` holds the nodes that were visited, `queue` those that were
found, each with its label. Visiting `v` with label `a` gives the successors it finds the
label `pass v a`. -/
def spread (g : Graph ν) (pass : ν → α → α) (done queue : List (ν × α)) : List (ν × α) :=
  match queue with
  | [] => done
  | (v, a) :: rest =>
    let found := g.discover (unlabel done ++ unlabel ((v, a) :: rest)) v
    g.spread pass (done ++ [(v, a)]) (rest ++ found.map fun w => (w, pass v a))
termination_by (g.outside (unlabel done ++ unlabel queue)).length + queue.length
decreasing_by
  -- The visited node stays known, so that only what it finds becomes known.
  have hkeys : unlabel (done ++ [(v, a)]) ++ unlabel (rest ++ found.map fun w => (w, pass v a)) =
      unlabel done ++ unlabel ((v, a) :: rest) ++ found := by
    simp [unlabel, Function.comp_def]
  have hlen : (rest ++ found.map fun w => (w, pass v a)).length = rest.length + found.length := by
    rw [List.length_append, List.length_map]
  have hle : (g.outside (unlabel done ++ unlabel ((v, a) :: rest) ++ found)).length +
      found.length ≤ (g.outside (unlabel done ++ unlabel ((v, a) :: rest))).length :=
    g.length_outside_append_discover_le _ v
  rw [hkeys, hlen, List.length_cons]
  omega

/-- The nodes that walks from `starts` visit, the starts among them. -/
def reachableFrom (g : Graph ν) (starts : List ν) : List ν :=
  unlabel (g.spread (fun _ u => u) [] (starts.map fun v => (v, ())))

/-- The nodes that walks from the entry visit. -/
def reachable (g : Graph ν) : List ν := g.reachableFrom g.entry.toList

/-! ### Ways back -/

/-- A search for a way back to a node: the nodes from which it went on, and those that it found and
has still to look at, the last one first. -/
structure Hunt (ν : Type) where
  seen : List ν
  stack : List ν

namespace Hunt

variable {g : Graph ν} {v : ν} {s s' : Hunt ν}

/-- The search for a way back to `v` begins behind it. -/
def start (g : Graph ν) (v : ν) : Hunt ν := ⟨[], (g.succs v).reverse⟩

/-- Look at one node. The search has its answer if that is `v`, or if there is none left; else it
goes on from the node, unless it has done so before. -/
def round (g : Graph ν) (v : ν) (s : Hunt ν) : Except Bool (Hunt ν) :=
  match s.stack with
  | [] => .error false
  | u :: stack =>
    if u = v then .error true
    else if u ∈ s.seen then .ok ⟨s.seen, stack⟩
    else .ok ⟨u :: s.seen, (g.succs u).reverse ++ stack⟩

/-- What one round can do if it has no answer. -/
theorem round_eq_ok (h : s.round g v = .ok s') : ∃ u stack, s.stack = u :: stack ∧ u ≠ v ∧
    (u ∈ s.seen ∧ s' = ⟨s.seen, stack⟩ ∨
      u ∉ s.seen ∧ s' = ⟨u :: s.seen, (g.succs u).reverse ++ stack⟩) := by
  unfold round at h
  split at h
  · cases h
  · next u stack hstack =>
    refine ⟨u, stack, hstack, ?_⟩
    split at h
    · cases h
    · next hne =>
      split at h
      · next hseen => exact ⟨hne, .inl ⟨hseen, (Except.ok.inj h).symm⟩⟩
      · next hseen => exact ⟨hne, .inr ⟨hseen, (Except.ok.inj h).symm⟩⟩

/-- How many nodes the search can still look at: the ones that it has found, and the successors of
those from which it has not gone on. -/
def left (g : Graph ν) (s : Hunt ν) : Nat :=
  ((g.outside s.seen).flatMap g.succs).length + s.stack.length

/-- Each round leaves fewer nodes to look at. -/
theorem left_lt (h : s.round g v = .ok s') : s'.left g < s.left g := by
  obtain ⟨u, stack, hstack, -, ⟨-, rfl⟩ | ⟨hseen, rfl⟩⟩ := round_eq_ok h
  · simp only [left, hstack, List.length_cons]
    omega
  · have hle := g.length_flatMap_outside_cons_le hseen
    simp only [left, hstack, List.length_append, List.length_reverse, List.length_cons]
    omega

/-- The answer of the search: whether it comes to `v`. -/
def answer (g : Graph ν) (v : ν) (s : Hunt ν) : Bool :=
  match _ : s.round g v with
  | .error found => found
  | .ok s' => s'.answer g v
termination_by s.left g
decreasing_by exact left_lt ‹_›

end Hunt

/-- Whether a walk of at least one edge leads from a node back to it. -/
def onCycle (g : Graph ν) (v : ν) : Bool := (Hunt.start g v).answer g v

end Graph

end BarrierLowering
