import BarrierLowering.Proofs.Script

/-!
# Counting the paths of an acyclic graph

Where no walk comes back to a node, the search ends every path at a node without successors, and
the number of paths from a node does not depend on how the search came there. So it can be counted
once for every node, as the sum over the distinct successors, while the search goes on from a shared
node again on each path that leads to it. A chain of diamonds is the smallest graph on which
the two differ most: the paths double at each diamond.

## Main definitions

* `Graph.Acyclic` — no node that the entry reaches lies on a cycle.
* `Graph.count` — the number of ways to go on from a node, by recursion over its successors.
* `Graph.DiamondChain` — some diamonds lie one behind the other.

## Main results

* `Graph.routesFrom_of_acyclic` — the search finds as many routes as were counted.
* `Graph.count_of_diamondChain` — the count along a chain of diamonds.
* `Graph.enumerate_of_acyclic` — the list of all paths of an acyclic graph.
-/

namespace BarrierLowering.Graph

variable {ν : Type} {g : Graph ν} {u v e : ν}

/-- A walk leads from one node to another. -/
abbrev Reaches (g : Graph ν) : ν → ν → Prop := Relation.ReflTransGen fun u v => v ∈ g.edges u

/-- No node that the entry reaches lies on a cycle. -/
def Acyclic (g : Graph ν) : Prop :=
  ∀ e v, g.entry = some e → g.Reaches e v → ¬ Relation.TransGen (fun u v => v ∈ g.edges u) v v

/-! ### The count -/

section Count

variable [DecidableEq ν]

/-- The nodes that walks from a node visit. -/
def below (g : Graph ν) (v : ν) : List ν := g.nodes.filter fun w => w ∈ g.reachableFrom [v]

/-- Over an edge that lies on no cycle, one node less can be visited. -/
theorem length_below_lt (huv : g.Edge u v) (hu : ¬ g.OnCycle u) :
    (g.below v).length < (g.below u).length := by
  have hmem : ∀ {x y}, y ∈ g.reachableFrom [x] ↔ Relation.ReflTransGen g.Step x y := by
    intro x y
    rw [mem_reachableFrom_iff]
    simp
  refine length_filter_lt_length_filter (fun w hw hvw => ?_) huv.mem_nodes ?_ ?_
  · -- the first node of a walk is a node of the graph if the last one is
    rw [decide_eq_true_iff, hmem] at hvw ⊢
    refine .head ⟨huv, ?_⟩ hvw
    rcases Relation.ReflTransGen.cases_head hvw with rfl | ⟨x, hvx, -⟩
    · exact hw
    · exact hvx.1.mem_nodes
  · rw [decide_eq_false_iff_not, hmem]
    have hedges : g.Step ≤ g.Edge := fun _ _ hxy => hxy.1
    exact fun hvu => hu (.head' huv (Relation.ReflTransGen.mono hedges _ _ hvu))
  · rw [decide_eq_true_iff, hmem]

/-- The number of ways to go on from a node: one at a node without successors, else the sum over the
distinct successors. A node on a cycle has no such number, and counts nothing. -/
def count (g : Graph ν) (v : ν) : ℕ :=
  if g.succs v = [] then 1
  else if g.onCycle v then 0
  else ((g.succs v).attach.map fun u => g.count u.1).sum
termination_by (g.below v).length
decreasing_by exact length_below_lt u.2 (mt onCycle_iff.2 ‹_›)

theorem count_of_exit (hs : g.succs v = []) : g.count v = 1 := by
  rw [count, if_pos hs]

theorem count_of_succs (hs : g.succs v ≠ []) (hv : ¬ g.OnCycle v) :
    g.count v = ((g.succs v).map g.count).sum := by
  rw [count, if_neg hs, if_neg (mt onCycle_iff.1 hv), List.attach_map_val]

/-- **The search finds as many routes as were counted**, and none of them comes back. -/
theorem routesFrom_of_acyclic (trail : List ν) (node : ν)
    (hacyclic : ∀ v, Relation.ReflTransGen g.Edge node v → ¬ g.OnCycle v)
    (htrail : ∀ u ∈ trail, ¬ Relation.ReflTransGen g.Edge node u) :
    (g.routesFrom trail node).length = g.count node ∧
      ∀ r ∈ g.routesFrom trail node, r.back = none := by
  -- The induction is on the search. It keeps that no walk leads back to the trail.
  refine completionInduction g (motive := fun trail node =>
    (∀ v, Relation.ReflTransGen g.Edge node v → ¬ g.OnCycle v) →
    (∀ u ∈ trail, ¬ Relation.ReflTransGen g.Edge node u) →
    (g.routesFrom trail node).length = g.count node ∧
      ∀ r ∈ g.routesFrom trail node, r.back = none) ?_ ?_ ?_ trail node hacyclic htrail
  · intro trail node hmem _ htrail
    exact absurd .refl (htrail node hmem)
  · intro trail node hmem hs _ _
    rw [routesFrom_of_exit hmem hs, count_of_exit hs]
    exact ⟨rfl, fun r hr => by rw [List.mem_singleton.1 hr]⟩
  · intro trail node hmem hs ih hacyclic htrail
    have hroutes : ∀ u ∈ g.succs node,
        (g.routesFrom (trail ++ [node]) u).length = g.count u ∧
          ∀ r ∈ g.routesFrom (trail ++ [node]) u, r.back = none := by
      intro u hu
      refine ih u hu (fun v huv => hacyclic v (.head hu huv)) fun w hw huw => ?_
      rcases List.mem_append.1 hw with hw | hw
      · exact htrail w hw (.head hu huw)
      · rw [List.mem_singleton.1 hw] at huw
        exact hacyclic node .refl (.head' hu huw)
    rw [routesFrom_of_succs hmem hs, count_of_succs hs (hacyclic node .refl)]
    constructor
    · rw [List.length_flatMap]
      exact congrArg List.sum (List.map_congr_left fun u hu => (hroutes u hu).1)
    · intro r hr
      obtain ⟨u, hu, hr⟩ := List.mem_flatMap.1 hr
      exact (hroutes u hu).2 r hr

/-- The search follows walks of the graph. -/
theorem Reaches.of_edges (h : Relation.ReflTransGen g.Edge u v) : g.Reaches u v :=
  h.lift id fun _ _ => Edge.mem_edges

theorem Acyclic.not_onCycle (hg : g.Acyclic) (he : g.entry = some e) (hv : g.Reaches e v) :
    ¬ g.OnCycle v :=
  fun hcycle => hg e v he hv (hcycle.lift id fun _ _ => Edge.mem_edges)

/-- The count at a node that the entry reaches. -/
theorem Listed.count_eq (hg : g.Listed) (hacyclic : g.Acyclic) (he : g.entry = some e)
    (hv : g.Reaches e v) : g.count v =
      if g.edges v = [] then 1 else ((g.edges v).eraseDups.map g.count).sum := by
  have hsuccs := hg.succs_eq he hv
  by_cases hnil : g.edges v = []
  · rw [if_pos hnil, count_of_exit]
    rw [hsuccs, hnil]
    rfl
  · rw [if_neg hnil, ← hsuccs, count_of_succs _ (hacyclic.not_onCycle he hv)]
    obtain ⟨u, hu⟩ := List.exists_mem_of_ne_nil _ hnil
    rw [hsuccs]
    exact List.ne_nil_of_mem (List.mem_eraseDups.2 hu)

/-- The list of all paths of an acyclic graph has as many of them as were counted, and each of them
ends where there are no successors. -/
theorem Acyclic.exists_enumerate (hg : g.Acyclic) (he : g.entry = some e) {limit : ℕ}
    (hle : g.count e ≤ limit) : ∃ paths, g.enumerate limit = some paths ∧
      paths.length = g.count e ∧ ∀ p ∈ paths, p.finish = .exit := by
  have hroutes : g.routes = g.routesFrom [] e := by rw [routes, he]
  obtain ⟨hlength, hback⟩ := routesFrom_of_acyclic [] e
    (fun v hv => hg.not_onCycle he (Reaches.of_edges hv))
    fun _ hu => absurd hu List.not_mem_nil
  obtain ⟨ps, listed, hcourses, hperm, -, hlisted, -⟩ := g.exists_listed
  have hcount : listed.length = g.count e := by
    rw [hperm.length_eq, ← List.length_map Path.course, hcourses, List.length_map, hroutes, hlength]
  refine ⟨listed, hlisted limit (hcount ▸ hle), hcount, fun p hp => ?_⟩
  have hcourse := List.mem_map_of_mem (f := Path.course) (hperm.mem_iff.1 hp)
  rw [hcourses, hroutes] at hcourse
  obtain ⟨r, hr, hrp⟩ := List.mem_map.1 hcourse
  rw [Route.course, hback r hr] at hrp
  exact (congrArg Prod.snd hrp).symm

end Count

/-! ### Chains of diamonds -/

/-- From this node on there are some diamonds one behind the other, and nothing else. -/
inductive DiamondChain (g : Graph ν) : ℕ → ν → Prop
  | exit {v : ν} : g.edges v = [] → DiamondChain g 0 v
  | diamond {k : ℕ} {v left right join : ν} : g.edges v = [left, right] → left ≠ right →
      g.edges left = [join] → g.edges right = [join] → DiamondChain g k join →
      DiamondChain g (k + 1) v

/-- A chain of diamonds comes to an end. -/
theorem DiamondChain.acc {k : ℕ} (h : g.DiamondChain k v) : Acc (fun u v => u ∈ g.edges v) v := by
  induction h with
  | exit hv => exact ⟨_, fun u hu => by rw [hv] at hu; cases hu⟩
  | @diamond _ v left right join hv _ hleft hright _ ih =>
    have hside : ∀ {u}, g.edges u = [join] → Acc (fun u v => u ∈ g.edges v) u := by
      intro u hu
      refine ⟨_, fun w hw => ?_⟩
      rw [hu, List.mem_singleton] at hw
      exact hw ▸ ih
    refine ⟨_, fun u hu => ?_⟩
    rw [hv] at hu
    rcases List.mem_pair.1 hu with rfl | rfl
    · exact hside hleft
    · exact hside hright

/-- No node lies on a cycle if all walks from the entry come to an end. -/
theorem acyclic_of_acc (he : g.entry = some e) (hacc : Acc (fun u v => u ∈ g.edges v) e) :
    g.Acyclic := by
  intro e' v he' hev
  obtain rfl : e = e' := Option.some.inj (he.symm.trans he')
  have hv : Acc (fun u v => u ∈ g.edges v) v := by
    induction hev with
    | refl => exact hacc
    | tail _ hxy ih => exact ih.inv hxy
  -- walks from the node come to an end, so that it cannot be visited again
  induction hv with
  | intro v _ ih =>
    intro hcycle
    obtain ⟨x, hvx, hxv⟩ := Relation.TransGen.head'_iff.1 hcycle
    exact ih x hvx (hev.tail hvx) (.tail' hxv hvx)

/-- The count doubles at each diamond. -/
theorem count_of_diamondChain [DecidableEq ν] (hg : g.Listed) (hacyclic : g.Acyclic)
    (he : g.entry = some e) {k : ℕ} (h : g.DiamondChain k v) (hv : g.Reaches e v) :
    g.count v = 2 ^ k := by
  induction h with
  | exit hnil => rw [hg.count_eq hacyclic he hv, if_pos hnil, pow_zero]
  | @diamond k v left right join hedges hne hleft hright _ ih =>
    have hside : ∀ {u}, u ∈ g.edges v → g.edges u = [join] → g.count u = 2 ^ k := by
      intro u hu hjoin
      rw [hg.count_eq hacyclic he (hv.tail hu), hjoin, if_neg (List.cons_ne_nil _ _),
        eraseDups_eq_self (List.nodup_singleton _), List.map_singleton, List.sum_singleton]
      exact ih ((hv.tail hu).tail (by rw [hjoin]; exact List.mem_cons_self))
    have hpair : [left, right].Nodup := by simpa using hne
    rw [hg.count_eq hacyclic he hv, hedges, if_neg (List.cons_ne_nil _ _),
      eraseDups_eq_self hpair, List.map_cons, List.map_singleton, List.sum_cons,
      List.sum_singleton, hside (by simp [hedges]) hleft, hside (by simp [hedges]) hright, pow_succ]
    omega

/-- **An acyclic graph has as many paths as its count says**, all of which end at a node without
successors. A chain of diamonds is acyclic, and has a power of two of them. -/
theorem enumerate_of_acyclic [DecidableEq ν] (g : Graph ν) (e : ν) (hg : g.Listed)
    (he : g.entry = some e) :
    (g.Acyclic →
      (∀ v, g.Reaches e v → g.count v =
        if g.edges v = [] then 1 else ((g.edges v).eraseDups.map g.count).sum) ∧
      ∀ limit, g.count e ≤ limit → ∃ paths, g.enumerate limit = some paths ∧
        paths.length = g.count e ∧ ∀ p ∈ paths, p.finish = .exit) ∧
    ∀ k, g.DiamondChain k e → g.Acyclic ∧ g.count e = 2 ^ k ∧
      ∀ limit, 2 ^ k ≤ limit → ∃ paths, g.enumerate limit = some paths ∧
        paths.length = 2 ^ k ∧ ∀ p ∈ paths, p.finish = .exit := by
  refine ⟨fun hacyclic => ⟨fun v => hg.count_eq hacyclic he,
    fun limit => hacyclic.exists_enumerate he⟩, fun k hchain => ?_⟩
  have hacyclic := acyclic_of_acc he hchain.acc
  have hcount := count_of_diamondChain hg hacyclic he hchain .refl
  refine ⟨hacyclic, hcount, fun limit hle => ?_⟩
  rw [← hcount] at hle ⊢
  exact hacyclic.exists_enumerate he hle

/-- Diamonds one behind the other. The nodes are numbered along the chain, so that every third one
begins a diamond, and the last one ends the chain. -/
def diamonds (k : ℕ) : Graph ℕ where
  entry := some 0
  nodes := List.range (3 * k + 1)
  edges v :=
    if 3 * k ≤ v then []
    else if v % 3 = 0 then [v + 1, v + 2]
    else [v - v % 3 + 3]

theorem listed_diamonds (k : ℕ) : (diamonds k).Listed := by
  intro e v _ _ hne
  have hlt : v < 3 * k := by
    by_contra hle
    exact hne (if_pos (by omega))
  exact List.mem_range.2 (by omega)

/-- From the beginning of each diamond on, the rest is a chain. -/
theorem diamondChain_diamonds {k j : ℕ} (hj : j ≤ k) :
    (diamonds k).DiamondChain j (3 * (k - j)) := by
  induction j with
  | zero => exact .exit (if_pos (by omega))
  | succ j ih =>
    have hjoin : 3 * (k - j) = 3 * (k - (j + 1)) + 3 := by omega
    have hside : ∀ i, i = 1 ∨ i = 2 →
        (diamonds k).edges (3 * (k - (j + 1)) + i) = [3 * (k - j)] := by
      intro i hi
      refine (if_neg (by omega)).trans ((if_neg (by omega)).trans ?_)
      rw [List.cons.injEq]
      exact ⟨by omega, rfl⟩
    have hbranch : (diamonds k).edges (3 * (k - (j + 1))) =
        [3 * (k - (j + 1)) + 1, 3 * (k - (j + 1)) + 2] :=
      (if_neg (by omega)).trans (if_pos (by omega))
    exact .diamond hbranch (by omega) (hside 1 (.inl rfl)) (hside 2 (.inr rfl)) (ih (by omega))

/-- One branch lists a successor twice, and two paths share the rest of a third. -/
def sharing : Graph ℕ :=
  ⟨some 0, [0, 1, 2, 3], fun
    | 0 => [1, 2, 1]
    | 1 => [2, 3]
    | 2 => [3]
    | _ => []⟩

theorem lt_of_mem_edges_sharing {u v : ℕ} (h : v ∈ sharing.edges u) : u < v := by
  rw [sharing] at h
  match u with
  | 0 | 1 | 2 => grind
  | _ + 3 => cases h

theorem enumerate_of_acyclic_diamonds :
    sharing.Listed ∧ sharing.Acyclic ∧ sharing.count 0 = 3 ∧
    (∃ paths, sharing.enumerate 3 = some paths ∧ paths.length = 3 ∧
      ∀ p ∈ paths, p.finish = .exit) ∧
    (diamonds 9).Listed ∧ (diamonds 9).DiamondChain 9 0 ∧
    ∃ paths, (diamonds 9).enumerate 512 = some paths ∧ paths.length = 512 ∧
      ∀ p ∈ paths, p.finish = .exit := by
  have hlisted : sharing.Listed := by
    intro e v _ _ hne
    match v with
    | 0 | 1 | 2 => decide
    | _ + 3 => exact absurd rfl hne
  have hacyclic : sharing.Acyclic := by
    intro e v _ _ hcycle
    have hle : (fun u v => v ∈ sharing.edges u) ≤ (· < ·) := fun _ _ => lt_of_mem_edges_sharing
    exact lt_irrefl v (Relation.transGen_minimal hle _ _ hcycle)
  have hcount : sharing.count 0 = 3 := by cbv
  obtain ⟨-, hpaths⟩ := (enumerate_of_acyclic sharing 0 hlisted rfl).1 hacyclic
  have hchain : (diamonds 9).DiamondChain 9 0 := diamondChain_diamonds le_rfl
  obtain ⟨-, -, hdiamonds⟩ :=
    (enumerate_of_acyclic (diamonds 9) 0 (listed_diamonds 9) rfl).2 9 hchain
  rw [hcount] at hpaths
  exact ⟨hlisted, hacyclic, hcount, hpaths 3 le_rfl, listed_diamonds 9, hchain,
    hdiamonds 512 (by decide)⟩

end BarrierLowering.Graph
