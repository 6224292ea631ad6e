import BarrierLowering.Proofs.Walk

/-!
# What a search finds

A breadth-first search visits exactly the nodes that can be reached from where it starts,
each of them once. So the reachable nodes of a graph are the ends of its walks. A search for a way
back to a node comes to its end, and finds one exactly if the node lies on a cycle.

## Main definitions

* `Graph.Step` — an edge to a node of the graph.
* `Graph.Hunt.Tracks`, `Graph.Hunt.rounds` — where a search for a way back is, and some rounds of
  it.

## Main results

* `Graph.spread_induction` — induction over the labels that a search gives out.
* `Graph.mem_reachable_iff` — a node is reachable if a walk leads to it.
* `Graph.nodup_reachable` — it is listed once.
* `Graph.Hunt.rounds_eq_answer` — a search for a way back comes to its end.
* `Graph.onCycle_iff` — the test for a cycle.
-/

namespace BarrierLowering.Graph

variable {ν α : Type}

@[simp] theorem unlabel_append (l₁ l₂ : List (ν × α)) :
    unlabel (l₁ ++ l₂) = unlabel l₁ ++ unlabel l₂ :=
  List.map_append

@[simp] theorem unlabel_cons (v : ν) (a : α) (l : List (ν × α)) :
    unlabel ((v, a) :: l) = v :: unlabel l := rfl

@[simp] theorem unlabel_nil : unlabel ([] : List (ν × α)) = [] := rfl

@[simp] theorem unlabel_label (l : List ν) (a : α) : unlabel (l.map fun w => (w, a)) = l := by
  simp [unlabel, Function.comp_def]

variable [DecidableEq ν] {g : Graph ν} {u v : ν}

/-- An edge that a search follows: it ends at a node of the graph. -/
def Step (g : Graph ν) (v w : ν) : Prop := g.Edge v w ∧ w ∈ g.nodes

theorem mem_discover {known : List ν} : u ∈ g.discover known v ↔ g.Step v u ∧ u ∉ known := by
  simp [discover, Step, Edge, and_assoc]

/-- Which nodes a search visits, and in which order, does not depend on the labels. -/
theorem unlabel_spread (pass : ν → α → α) (done queue : List (ν × α)) :
    unlabel (g.spread pass done queue) =
      unlabel (g.spread (fun _ u => u) ((unlabel done).map fun v => (v, ()))
        ((unlabel queue).map fun v => (v, ()))) := by
  fun_induction spread g pass done queue with
  | case1 done => simp [spread]
  | case2 done v a rest found ih =>
    rw [ih]
    conv_rhs => rw [unlabel_cons, List.map_cons, spread]
    simp only [found, unlabel_append, unlabel_cons, unlabel_nil, unlabel_label, List.map_append,
      List.map_cons, List.map_nil]

/-- A search keeps what it has visited and what it has found. -/
theorem mem_unlabel_spread_of_mem (pass : ν → α → α) (done queue : List (ν × α))
    (hu : u ∈ unlabel done ++ unlabel queue) : u ∈ unlabel (g.spread pass done queue) := by
  fun_induction spread g pass done queue with
  | case1 done => simpa using hu
  | case2 done v a rest found ih =>
    apply ih
    simp only [unlabel_append, unlabel_cons, unlabel_nil] at hu ⊢
    simp only [List.mem_append, List.mem_cons, List.not_mem_nil, or_false] at hu ⊢
    tauto

/-- A search keeps the labels of what it has visited and of what it has found. -/
theorem mem_spread_of_mem (pass : ν → α → α) (done queue : List (ν × α)) {x : ν × α}
    (hx : x ∈ done ++ queue) : x ∈ g.spread pass done queue := by
  fun_induction spread g pass done queue with
  | case1 done => simpa using hx
  | case2 done v a rest found ih =>
    apply ih
    simp only [List.mem_append, List.mem_cons, List.not_mem_nil, or_false] at hx ⊢
    tauto

/-- What holds of the labels of the starts, and is passed on along the steps that found a node,
holds of the labels of all that is visited. -/
theorem spread_induction (pass : ν → α → α) (done queue : List (ν × α)) {motive : ν → α → Prop}
    (start : ∀ x ∈ done ++ queue, motive x.1 x.2)
    (step : ∀ v a w, (v, a) ∈ g.spread pass done queue → (w, pass v a) ∈ g.spread pass done queue →
      g.Step v w → motive v a → motive w (pass v a)) :
    ∀ x ∈ g.spread pass done queue, motive x.1 x.2 := by
  fun_induction spread g pass done queue with
  | case1 done => simpa using start
  | case2 done v a rest found ih =>
    refine ih (fun x hx => ?_) step
    have hkept : ∀ {y}, y ∈ done ++ [(v, a)] ++ (rest ++ found.map fun w => (w, pass v a)) →
        y ∈ g.spread pass (done ++ [(v, a)]) (rest ++ found.map fun w => (w, pass v a)) :=
      fun hy => mem_spread_of_mem pass _ _ hy
    simp only [List.mem_append, List.mem_cons, List.not_mem_nil, or_false] at hx start
    rcases hx with (hx | rfl) | hx | hx
    · exact start x (Or.inl hx)
    · exact start _ (Or.inr (Or.inl rfl))
    · exact start x (Or.inr (Or.inr hx))
    · -- the node was found just now
      obtain ⟨w, hw, rfl⟩ := List.mem_map.1 hx
      exact step v a w (hkept (by simp)) (hkept (by simp [hw])) (mem_discover.1 hw).1
        (start (v, a) (Or.inr (Or.inl rfl)))

/-- What a search visits it has visited before, or found, or can reach from what it found. -/
theorem spread_sound (pass : ν → α → α) (done queue : List (ν × α))
    (hu : u ∈ unlabel (g.spread pass done queue)) :
    u ∈ unlabel done ∨ ∃ s ∈ unlabel queue, Relation.ReflTransGen g.Step s u := by
  fun_induction spread g pass done queue with
  | case1 done => exact Or.inl hu
  | case2 done v a rest found ih =>
    rcases ih hu with h | ⟨s, hs, hsu⟩
    · simp only [unlabel_append, unlabel_cons, unlabel_nil, List.mem_append,
        List.mem_singleton] at h
      rcases h with h | rfl
      · exact Or.inl h
      · exact Or.inr ⟨u, by simp, .refl⟩
    · simp only [unlabel_append, unlabel_label, List.mem_append] at hs
      rcases hs with hs | hs
      · exact Or.inr ⟨s, by simp [hs], hsu⟩
      · -- the start was found from `v`, one step before
        exact Or.inr ⟨v, by simp, .head (mem_discover.1 hs).1 hsu⟩

/-- What a search visits is closed under steps, if all that leads out of the visited nodes
was visited or found. -/
theorem spread_closed (pass : ν → α → α) (done queue : List (ν × α))
    (hdone : ∀ x ∈ unlabel done, ∀ y, g.Step x y → y ∈ unlabel done ++ unlabel queue) :
    ∀ x ∈ unlabel (g.spread pass done queue), ∀ y, g.Step x y →
      y ∈ unlabel (g.spread pass done queue) := by
  fun_induction spread g pass done queue with
  | case1 done => simpa using hdone
  | case2 done v a rest found ih =>
    refine ih fun x hx y hxy => ?_
    simp only [unlabel_append, unlabel_cons, unlabel_nil, unlabel_label, List.mem_append,
      List.mem_singleton] at hx ⊢
    rcases hx with hx | rfl
    · have := hdone x hx y hxy
      simp only [unlabel_cons, List.mem_append, List.mem_cons] at this
      tauto
    · -- a successor of the visited node is known or found now
      by_cases hy : y ∈ unlabel done ++ unlabel ((x, a) :: rest)
      · simp only [unlabel_cons, List.mem_append, List.mem_cons] at hy
        tauto
      · exact Or.inr (Or.inr (mem_discover.2 ⟨hxy, hy⟩))

/-- A search visits no node twice. -/
theorem nodup_spread (pass : ν → α → α) (done queue : List (ν × α))
    (h : (unlabel done ++ unlabel queue).Nodup) : (unlabel (g.spread pass done queue)).Nodup := by
  fun_induction spread g pass done queue with
  | case1 done => simpa using h
  | case2 done v a rest found ih =>
    apply ih
    have hfound : found.Nodup := (g.nodup_succs v).filter _
    have hnew : (unlabel done ++ unlabel ((v, a) :: rest) ++ found).Nodup := by
      refine List.nodup_append.2 ⟨h, hfound, fun x hx y hy hxy => ?_⟩
      exact (mem_discover.1 hy).2 (hxy ▸ hx)
    simpa [List.append_assoc] using hnew

/-! ### Reachable nodes -/

theorem mem_reachableFrom_iff {starts : List ν} :
    v ∈ g.reachableFrom starts ↔ ∃ s ∈ starts, Relation.ReflTransGen g.Step s v := by
  constructor
  · intro h
    rcases spread_sound _ _ _ h with h | h
    · simp at h
    · simpa using h
  · rintro ⟨s, hs, hsv⟩
    induction hsv with
    | refl => exact mem_unlabel_spread_of_mem _ _ _ (by simpa using hs)
    | tail _ hxy ih => exact spread_closed _ _ _ (by simp) _ ih _ hxy

/-- A node with a successor is one of the graph. -/
theorem Edge.mem_nodes (h : g.Edge u v) : u ∈ g.nodes := by
  by_contra hu
  simp [Edge, succs, hu] at h

/-- The reachable nodes are the ends of the walks, as far as they are nodes of the graph. -/
theorem mem_reachable_iff :
    v ∈ g.reachable ↔ (∃ w, g.IsWalk (w ++ [v])) ∧ (g.entry = some v ∨ v ∈ g.nodes) := by
  rw [reachable, mem_reachableFrom_iff]
  constructor
  · rintro ⟨e, he, hev⟩
    rw [Option.mem_toList] at he
    induction hev with
    | refl => exact ⟨⟨[], isWalk_singleton.2 he⟩, Or.inl he⟩
    | tail _ hxy ih =>
      obtain ⟨⟨w, hw⟩, -⟩ := ih
      exact ⟨⟨_, hw.snoc hxy.1⟩, Or.inr hxy.2⟩
  · rintro ⟨⟨w, hw⟩, hv⟩
    refine IsWalk.snocInduction (motive := fun _ v => g.entry = some v ∨ v ∈ g.nodes →
      ∃ s ∈ g.entry.toList, Relation.ReflTransGen g.Step s v) ?_ ?_ w v hw hv
    · intro e he _
      exact ⟨e, by simp [he], .refl⟩
    · rintro w u v - huv ih hv
      obtain ⟨s, hs, hsu⟩ := ih (Or.inr huv.mem_nodes)
      rcases hv with hv | hv
      · exact ⟨v, by simp [hv], .refl⟩
      · exact ⟨s, hs, hsu.tail ⟨huv, hv⟩⟩

/-- A reachable node is listed once. -/
theorem nodup_reachable (g : Graph ν) : g.reachable.Nodup := by
  apply nodup_spread
  cases g.entry <;> simp

/-! ### Ways back -/

namespace Hunt

variable {s s' : Hunt ν} {found : Bool} {n : ℕ}

/-- Where a search for a way back to `v` is: what it found can be reached from `v`, and all that
leads out of `v`, or out of a node from which it went on, was found. -/
structure Tracks (g : Graph ν) (v : ν) (s : Hunt ν) : Prop where
  reached : ∀ u ∈ s.stack, Relation.TransGen g.Edge v u
  misses : v ∉ s.seen
  closed : ∀ x y, x = v ∨ x ∈ s.seen → g.Edge x y → y ∈ s.seen ∨ y ∈ s.stack

theorem tracks_start (g : Graph ν) (v : ν) : Tracks g v (start g v) where
  reached := fun _ hu => .single (List.mem_reverse.1 hu)
  misses := List.not_mem_nil
  closed := by
    rintro x y (rfl | hx) hxy
    · exact .inr (List.mem_reverse.2 hxy)
    · cases hx

/-- One round keeps track. -/
theorem Tracks.round (h : Tracks g v s) (hround : s.round g v = .ok s') : Tracks g v s' := by
  obtain ⟨u, stack, hstack, hne, ⟨hseen, rfl⟩ | ⟨-, rfl⟩⟩ := round_eq_ok hround
  · -- the search went on from the node before
    refine ⟨fun w hw => h.reached w (hstack ▸ List.mem_cons_of_mem u hw), h.misses,
      fun x y hx hxy => ?_⟩
    rcases h.closed x y hx hxy with hy | hy
    · exact .inl hy
    · rcases List.mem_cons.1 (hstack ▸ hy) with rfl | hy
      · exact .inl hseen
      · exact .inr hy
  · have hu : Relation.TransGen g.Edge v u := h.reached u (hstack ▸ List.mem_cons_self)
    refine ⟨fun w hw => ?_, fun hv => ?_, fun x y hx hxy => ?_⟩
    · rcases List.mem_append.1 hw with hw | hw
      · exact hu.tail (List.mem_reverse.1 hw)
      · exact h.reached w (hstack ▸ List.mem_cons_of_mem u hw)
    · rcases List.mem_cons.1 hv with rfl | hv
      · exact hne rfl
      · exact h.misses hv
    · -- what leads out of the node is found now
      by_cases hxu : x = u
      · subst hxu
        exact .inr (List.mem_append_left _ (List.mem_reverse.2 hxy))
      · have hx' : x = v ∨ x ∈ s.seen := hx.imp_right fun hx =>
          (List.mem_cons.1 hx).resolve_left hxu
        rcases h.closed x y hx' hxy with hy | hy
        · exact .inl (List.mem_cons_of_mem u hy)
        · rcases List.mem_cons.1 (hstack ▸ hy) with rfl | hy
          · exact .inl List.mem_cons_self
          · exact .inr (List.mem_append_right _ hy)

/-- A round that has an answer has the right one. -/
theorem Tracks.found_iff (h : Tracks g v s) (hround : s.round g v = .error found) :
    found = true ↔ g.OnCycle v := by
  unfold Hunt.round at hround
  split at hround
  · next hstack =>
    cases hround
    -- nothing is left to look at, so that all that can be reached was seen
    have hout : ∀ x y, x = v ∨ x ∈ s.seen → g.Edge x y → y ∈ s.seen := fun x y hx hxy =>
      (h.closed x y hx hxy).resolve_right (hstack ▸ List.not_mem_nil)
    have hseen : ∀ y, Relation.TransGen g.Edge v y → y ∈ s.seen := by
      intro y hy
      induction hy with
      | single hvy => exact hout _ _ (.inl rfl) hvy
      | tail _ hxy ih => exact hout _ _ (.inr ih) hxy
    exact iff_of_false Bool.false_ne_true fun hv => h.misses (hseen v hv)
  · next u stack hstack =>
    split at hround
    · next huv =>
      cases hround
      exact iff_of_true rfl (huv ▸ h.reached u (hstack ▸ List.mem_cons_self))
    · split at hround <;> cases hround

/-- The answer of a search is right. -/
theorem Tracks.answer_iff (h : Tracks g v s) : s.answer g v = true ↔ g.OnCycle v := by
  fun_induction answer g v s with
  | case1 s found hround => exact h.found_iff hround
  | case2 s s' hround ih => exact ih (h.round hround)

/-- Some rounds, one after another, as long as the search has no answer. -/
def rounds (g : Graph ν) (v : ν) : ℕ → Hunt ν → Except Bool (Hunt ν)
  | 0, s => .ok s
  | n + 1, s => s.round g v >>= rounds g v n

/-- **A search for a way back comes to its end**, at the latest one round after it has looked at all
that it can look at. -/
theorem rounds_eq_answer (hn : s.left g < n) : rounds g v n s = .error (s.answer g v) := by
  induction n generalizing s with
  | zero => cases hn
  | succ n ih =>
    rw [rounds, answer]
    split
    · next found hround =>
      rw [hround]
      rfl
    · next s' hround =>
      rw [hround]
      exact ih (Nat.lt_of_lt_of_le (left_lt hround) (Nat.le_of_lt_succ hn))

end Hunt

/-- The test for a cycle is exact. -/
theorem onCycle_iff : g.onCycle v = true ↔ g.OnCycle v := (Hunt.tracks_start g v).answer_iff

end BarrierLowering.Graph
