import BarrierLowering.Graph
import Mathlib.Data.List.Chain
import Mathlib.Data.List.Nodup

/-!
# Walks

A walk of a graph starts at the entry and follows edges; it may visit a node as often as it
likes. A walk to `v` is written `w ++ [v]`, so that it grows at its end, the way control does.

## Main definitions

* `Graph.Edge` — one node is a successor of another.
* `Graph.IsWalk` — a list of nodes is a walk.
* `Graph.OnCycle` — a walk can come back to a node.

## Main results

* `Graph.IsWalk.snocInduction` — induction over the walks, one more node at a time.
* `Graph.IsWalk.exists_nodup` — a walk without its detours, which visits the nodes that are
  on no cycle exactly as the walk does.
-/

namespace BarrierLowering.Graph

variable {ν : Type} [DecidableEq ν] {g : Graph ν} {u v : ν} {w w₁ w₂ : List ν}

/-- An edge leads from `v` to `w`. -/
def Edge (g : Graph ν) (v w : ν) : Prop := w ∈ g.succs v

instance (g : Graph ν) (v w : ν) : Decidable (g.Edge v w) :=
  inferInstanceAs (Decidable (w ∈ g.succs v))

/-- A list of nodes that starts at the entry and follows edges. -/
structure IsWalk (g : Graph ν) (w : List ν) : Prop where
  start : ∃ e, g.entry = some e ∧ w.head? = some e
  edges : w.IsChain g.Edge

/-- A walk of at least one edge leads from `v` back to it. -/
def OnCycle (g : Graph ν) (v : ν) : Prop := Relation.TransGen g.Edge v v

/-! ### Building walks -/

theorem IsWalk.ne_nil (h : g.IsWalk w) : w ≠ [] := by
  rintro rfl
  obtain ⟨_, _, h⟩ := h.start
  cases h

/-- A walk ends somewhere. -/
theorem IsWalk.exists_snoc (h : g.IsWalk w) : ∃ w' v, w = w' ++ [v] :=
  ⟨_, _, (List.dropLast_append_getLast h.ne_nil).symm⟩

@[simp] theorem isWalk_singleton : g.IsWalk [v] ↔ g.entry = some v := by
  constructor
  · rintro ⟨⟨e, he, hv⟩, _⟩
    rw [he, ← hv, List.head?_cons]
  · intro h
    exact ⟨⟨v, h, rfl⟩, List.isChain_singleton v⟩

/-- A walk to `u` goes on over an edge from `u`. -/
theorem isWalk_snoc : g.IsWalk (w ++ [u] ++ [v]) ↔ g.IsWalk (w ++ [u]) ∧ g.Edge u v := by
  constructor
  · rintro ⟨⟨e, he, hh⟩, hc⟩
    rw [List.isChain_append] at hc
    obtain ⟨hw, -, huv⟩ := hc
    refine ⟨⟨⟨e, he, ?_⟩, hw⟩, huv u (by simp) v rfl⟩
    rwa [List.head?_append_of_ne_nil _ (by simp)] at hh
  · rintro ⟨⟨⟨e, he, hh⟩, hc⟩, huv⟩
    refine ⟨⟨e, he, ?_⟩, ?_⟩
    · rwa [List.head?_append_of_ne_nil _ (by simp)]
    · refine hc.append (List.isChain_singleton v) fun x hx y hy => ?_
      simp only [List.getLast?_append, List.getLast?_singleton, Option.some_or,
        Option.mem_some_iff, List.head?_cons] at hx hy
      exact hx ▸ hy ▸ huv

theorem IsWalk.snoc (h : g.IsWalk (w ++ [u])) (huv : g.Edge u v) : g.IsWalk (w ++ [u] ++ [v]) :=
  isWalk_snoc.2 ⟨h, huv⟩

/-- The first part of a walk is a walk. -/
theorem IsWalk.left (h : g.IsWalk (w₁ ++ w₂)) (hne : w₁ ≠ []) : g.IsWalk w₁ := by
  obtain ⟨⟨e, he, hh⟩, hc⟩ := h
  rw [List.head?_append_of_ne_nil _ hne] at hh
  exact ⟨⟨e, he, hh⟩, hc.left_of_append⟩

/-- A walk can be stopped at any node that it visits. -/
theorem IsWalk.stop (h : g.IsWalk (w₁ ++ v :: w₂)) : g.IsWalk (w₁ ++ [v]) := by
  rw [List.append_cons] at h
  exact h.left (by simp)

/-- A walk to `v` goes on along any edges from `v`. -/
theorem IsWalk.extend (h : g.IsWalk (w₁ ++ [v])) (hc : (v :: w₂).IsChain g.Edge) :
    g.IsWalk (w₁ ++ v :: w₂) := by
  obtain ⟨⟨e, he, hh⟩, hc₁⟩ := h
  refine ⟨⟨e, he, ?_⟩, List.isChain_split.2 ⟨hc₁, hc⟩⟩
  cases w₁ with
  | nil => exact hh
  | cons a w₁ => exact hh

/-- What a walk does after it has visited `v` are edges from `v`. -/
theorem IsWalk.rest (h : g.IsWalk (w₁ ++ v :: w₂)) : (v :: w₂).IsChain g.Edge :=
  (List.isChain_split.1 h.edges).2

/-- The edge between two nodes that a walk visits in turn. -/
theorem IsWalk.edge (h : g.IsWalk (w₁ ++ u :: v :: w₂)) : g.Edge u v :=
  (List.isChain_cons_cons.1 h.rest).1

/-- What holds at the entry and along every edge holds of every walk. -/
theorem IsWalk.snocInduction {motive : List ν → ν → Prop}
    (start : ∀ e, g.entry = some e → motive [] e)
    (step : ∀ w u v, g.IsWalk (w ++ [u]) → g.Edge u v → motive w u → motive (w ++ [u]) v) :
    ∀ w v, g.IsWalk (w ++ [v]) → motive w v := by
  intro w
  induction w using List.reverseRecOn with
  | nil =>
    intro v h
    exact start v (isWalk_singleton.1 h)
  | append_singleton w u ih =>
    intro v h
    obtain ⟨hw, huv⟩ := isWalk_snoc.1 h
    exact step w u v hw huv (ih u hw)

/-- A walk goes on to every node that can be reached from its end. -/
theorem IsWalk.exists_reach (h : g.IsWalk (w ++ [u])) (huv : Relation.ReflTransGen g.Edge u v) :
    ∃ w', g.IsWalk (w' ++ [v]) ∧ w ++ [u] <+: w' ++ [v] := by
  induction huv with
  | refl => exact ⟨w, h, List.prefix_rfl⟩
  | @tail x y _ hxy ih =>
    obtain ⟨w', hw', hpre⟩ := ih
    exact ⟨w' ++ [x], hw'.snoc hxy, hpre.trans (List.prefix_append _ _)⟩

/-! ### Cycles and detours -/

/-- Every node along some edges from `v` can be reached from `v`. -/
theorem transGen_of_isChain (h : (v :: w).IsChain g.Edge) (hu : u ∈ w) :
    Relation.TransGen g.Edge v u :=
  (h.imp fun _ _ => Relation.TransGen.single).rel_cons hu

/-- Where one node can be reached from another one, some edges lead there. -/
theorem exists_isChain_of_transGen (h : Relation.TransGen g.Edge u v) :
    ∃ w, (u :: (w ++ [v])).IsChain g.Edge := by
  induction h with
  | single huv => exact ⟨[], List.isChain_pair.2 huv⟩
  | @tail b c _ hbc ih =>
    obtain ⟨w, hw⟩ := ih
    refine ⟨w ++ [b], ?_⟩
    rw [← List.cons_append] at hw ⊢
    refine hw.append (List.isChain_singleton _) fun x hx y hy => ?_
    simp only [List.getLast?_append, List.getLast?_singleton, Option.some_or, Option.mem_some_iff,
      List.head?_cons] at hx hy
    exact hx ▸ hy ▸ hbc

/-- A walk that visits `v` twice closes a cycle through `v` and all that is in between. -/
theorem onCycle_of_revisit (h : (v :: w ++ [v]).IsChain g.Edge) (hu : u ∈ v :: w) :
    g.OnCycle u := by
  obtain ⟨w₁, w₂, hw⟩ := List.append_of_mem hu
  have hback : Relation.TransGen g.Edge u v := by
    rw [hw, List.append_assoc] at h
    exact transGen_of_isChain h.right_of_append (by simp)
  rcases List.mem_cons.1 hu with rfl | hu
  · exact hback
  · exact hback.trans (transGen_of_isChain h (by simp [hu]))

/-- A walk without its detours: no node is visited twice, and the nodes of a set that meets
no cycle are visited as before. -/
theorem IsWalk.exists_nodup {p : ν → Bool} (hp : ∀ x, p x = true → ¬ g.OnCycle x)
    (h : g.IsWalk (w ++ [v])) :
    ∃ w', g.IsWalk (w' ++ [v]) ∧ (w' ++ [v]).Nodup ∧
      (w' ++ [v]).filter p = (w ++ [v]).filter p := by
  refine IsWalk.snocInduction (motive := fun w v => ∃ w', g.IsWalk (w' ++ [v]) ∧
    (w' ++ [v]).Nodup ∧ (w' ++ [v]).filter p = (w ++ [v]).filter p) ?_ ?_ w v h
  · intro e he
    exact ⟨[], isWalk_singleton.2 he, List.nodup_singleton e, rfl⟩
  · rintro w u v - huv ⟨w', hw', hnd, hfilter⟩
    have hlong := hw'.snoc huv
    by_cases hv : v ∈ w' ++ [u]
    · -- `v` closes a detour, which the set does not meet
      obtain ⟨a, b, hab⟩ := List.append_of_mem hv
      rw [hab] at hlong hw' hnd hfilter
      have hloop : ((v :: b) ++ [v]).IsChain g.Edge := by
        rw [List.append_assoc] at hlong
        exact hlong.rest
      have hnot : ∀ x ∈ v :: b, p x = false := fun x hx =>
        Bool.eq_false_iff.2 fun hpx => hp x hpx (onCycle_of_revisit hloop hx)
      refine ⟨a, hw'.stop, hnd.sublist ?_, ?_⟩
      · exact List.Sublist.append_left (List.singleton_sublist.2 List.mem_cons_self) a
      · have hnil : (v :: b).filter p = [] := by
          rw [List.filter_eq_nil_iff]
          intro x hx
          rw [hnot x hx]
          exact Bool.false_ne_true
        have hv' : [v].filter p = [] := by simp [hnot v List.mem_cons_self]
        rw [List.filter_append (w ++ [u]), ← hfilter, List.filter_append, List.filter_append, hnil,
          hv', List.append_nil, List.append_nil]
    · refine ⟨w' ++ [u], hlong, ?_, ?_⟩
      · rw [List.nodup_append]
        refine ⟨hnd, List.nodup_singleton v, fun x hx y hy hxy => hv ?_⟩
        rw [List.mem_singleton] at hy
        exact hy ▸ hxy ▸ hx
      · rw [List.filter_append, hfilter, ← List.filter_append]

end BarrierLowering.Graph
