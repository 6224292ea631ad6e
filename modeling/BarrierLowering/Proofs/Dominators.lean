import BarrierLowering.Dominance
import BarrierLowering.Proofs.Search

/-!
# The dominator table is exact

Striking out candidates never loses a dominator, because a node that is on every walk to `v`
is `v` or on every walk to each predecessor of `v`. When nothing is left to strike out, a
candidate of `v` is on every walk to `v`, by induction over the walk.

The tables of the computation only shrink: what the equation gives for a node is in its row
already. So to strike out the other candidates is to put the right side of the equation in place of
the row.

## Main definitions

* `DomTable.recompute` — the right side of the equation.
* `Graph.Dominates` — a node is on every walk to another.
* `Graph.Struck` — the tables of the computation.
* `Graph.Sifted` — what every round of striking out keeps of a table.

## Main results

* `DomTable.settle_eq` — the rounds go on for as long as one changes the table.
* `Graph.Struck.recompute_subset`, `Graph.Struck.mem_strikeAt_iff` — a recomputed row is contained
  in the old one, and is what striking out makes of it.
* `Graph.mem_dominators_iff` — the computed table solves the equation.
* `Graph.isReachable_dominators` — the table has a row for each reachable node.
* `Graph.dominates_dominators` — the row holds the nodes that dominate it.
-/

namespace BarrierLowering

/-- With distinct keys, looking a key up finds what it stands before in the list. -/
theorem lookup_eq_some_iff_mem {α β : Type} [DecidableEq α] {l : List (α × β)} {a : α} {b : β}
    (h : (l.map (·.1)).Nodup) : l.lookup a = some b ↔ (a, b) ∈ l := by
  induction l with
  | nil => simp
  | cons x l ih =>
    obtain ⟨hx, hnd⟩ := List.nodup_cons.1 h
    rw [List.lookup_cons]
    by_cases ha : a = x.1
    · subst ha
      have hout : (x.1, b) ∉ l := fun hmem => hx (List.mem_map.2 ⟨_, hmem, rfl⟩)
      simp only [beq_self_eq_true, List.mem_cons, Prod.ext_iff, true_and]
      constructor
      · intro hb
        exact Or.inl (Option.some.inj hb).symm
      · rintro (rfl | hmem)
        · rfl
        · exact absurd hmem hout
    · have hbeq : (a == x.1) = false := beq_eq_false_iff_ne.2 ha
      rw [hbeq, List.mem_cons]
      simp only [ih hnd, Prod.ext_iff, ha, false_and, false_or]

namespace DomTable

variable {ν : Type}

/-- Shortening the rows of a table does not make it larger, and leaves it alone if it does
not make it smaller. -/
theorem size_map_le (f : ν × List ν → ν × List ν) (hkey : ∀ x, (f x).1 = x.1)
    (hrow : ∀ x, List.Sublist (f x).2 x.2) (t : DomTable ν) :
    size (t.map f) ≤ t.size ∧ (size (t.map f) = t.size → t.map f = t) := by
  induction t with
  | nil => exact ⟨Nat.le_refl _, fun _ => rfl⟩
  | cons x t ih =>
    have hx := (hrow x).length_le
    have hsize : ∀ (y : ν × List ν) (s : DomTable ν),
        size (y :: s) = y.2.length + s.size := by
      intro y s
      rw [size, size, List.flatMap_cons, List.length_append]
    rw [List.map_cons, hsize, hsize]
    refine ⟨by omega, fun heq => ?_⟩
    have h₁ : (f x).2.length = x.2.length := by omega
    have h₂ : size (t.map f) = size t := by omega
    have hfx : f x = x := Prod.ext (hkey x) ((hrow x).eq_of_length h₁)
    rw [hfx, ih.2 h₂]

variable [DecidableEq ν] {t : DomTable ν} {preds : List (ν × List ν)}

/-- The rows of a table after striking out the candidates of `v`. -/
theorem mem_strikeAt {v w : ν} {ps row : List ν} (h : (w, row) ∈ t.strikeAt v ps) :
    ∃ old, (w, old) ∈ t ∧ (w ≠ v → row = old) ∧ ∀ d, d ∈ row ↔
      d ∈ old ∧ (w = v → d = v ∨ ∀ p ∈ ps, ∀ r, (p, r) ∈ t → d ∈ r) := by
  simp only [strikeAt, List.mem_map] at h
  obtain ⟨⟨w', old⟩, hold, heq⟩ := h
  obtain ⟨rfl, rfl⟩ := Prod.mk.inj heq
  refine ⟨old, hold, fun hne => if_neg hne, fun d => ?_⟩
  by_cases hv : w' = v
  · simp only [hv, if_true, List.mem_filter, Bool.or_eq_true, decide_eq_true_iff,
      List.all_eq_true, List.mem_map, Prod.exists, exists_eq_right, forall_exists_index, and_imp,
      true_implies]
    constructor
    · rintro ⟨hd, hkeep⟩
      exact ⟨hd, hkeep.imp_right fun hall p hp r hr => hall r p hr hp⟩
    · rintro ⟨hd, hkeep⟩
      exact ⟨hd, hkeep.imp_right fun hall r p hr hp => hall p hp r hr⟩
  · simp [hv]

/-- Each row is there after striking out, and no longer than before. -/
theorem exists_mem_strikeAt {w : ν} {row : List ν} (v : ν) (ps : List ν) (h : (w, row) ∈ t) :
    ∃ new, (w, new) ∈ t.strikeAt v ps ∧ new ⊆ row := by
  refine ⟨_, List.mem_map_of_mem h, ?_⟩
  dsimp only
  split
  · exact List.filter_sublist.subset
  · exact List.Subset.refl _

theorem keys_strikeAt (t : DomTable ν) (v : ν) (ps : List ν) :
    (t.strikeAt v ps).map (·.1) = t.map (·.1) := by
  simp [strikeAt, Function.comp_def]

/-- Striking out at one node only shortens rows. -/
theorem size_strikeAt_le (t : DomTable ν) (v : ν) (ps : List ν) :
    (t.strikeAt v ps).size ≤ t.size ∧ ((t.strikeAt v ps).size = t.size → t.strikeAt v ps = t) := by
  apply size_map_le
  · rintro ⟨w, row⟩
    rfl
  · rintro ⟨w, row⟩
    dsimp only
    split
    · exact List.filter_sublist
    · exact List.Sublist.refl _

/-- A round of striking out that strikes out nothing changes nothing at any node. -/
theorem size_strike_le (preds : List (ν × List ν)) (t : DomTable ν) :
    (strike preds t).size ≤ t.size ∧
      ((strike preds t).size = t.size → ∀ x ∈ preds, t.strikeAt x.1 x.2 = t) := by
  induction preds generalizing t with
  | nil => exact ⟨Nat.le_refl _, fun _ x hx => absurd hx List.not_mem_nil⟩
  | cons y preds ih =>
    obtain ⟨hle, hsame⟩ := size_strikeAt_le t y.1 y.2
    obtain ⟨ihle, ihsame⟩ := ih (t.strikeAt y.1 y.2)
    have hcons : strike (y :: preds) t = strike preds (t.strikeAt y.1 y.2) := rfl
    rw [hcons]
    refine ⟨ihle.trans hle, fun heq x hx => ?_⟩
    have hy : t.strikeAt y.1 y.2 = t := hsame (by omega)
    rcases List.mem_cons.1 hx with rfl | hx
    · exact hy
    · rw [hy] at ihsame heq
      exact ihsame heq x hx

/-- Where striking out changes nothing at any node, a round changes nothing. -/
theorem strike_eq_self (h : ∀ x ∈ preds, t.strikeAt x.1 x.2 = t) : strike preds t = t := by
  induction preds with
  | nil => rfl
  | cons y preds ih =>
    show strike preds (t.strikeAt y.1 y.2) = t
    rw [h y List.mem_cons_self]
    exact ih fun x hx => h x (List.mem_cons_of_mem _ hx)

/-- A round makes the table smaller if and only if it changes anything. -/
theorem size_strike_lt_iff : (strike preds t).size < t.size ↔ strike preds t ≠ t := by
  obtain ⟨hle, hsame⟩ := size_strike_le preds t
  constructor
  · intro hlt heq
    rw [heq] at hlt
    exact Nat.lt_irrefl _ hlt
  · exact fun hne => Nat.lt_of_le_of_ne hle fun heq => hne (strike_eq_self (hsame heq))

/-- The rounds go on for as long as one changes the table. -/
theorem settle_eq (preds : List (ν × List ν)) (t : DomTable ν) :
    settle preds t = if strike preds t = t then t else settle preds (strike preds t) := by
  rw [settle]
  by_cases heq : strike preds t = t
  · rw [if_neg (mt size_strike_lt_iff.1 (not_not.2 heq)), if_pos heq]
  · rw [if_pos (size_strike_lt_iff.2 heq), if_neg heq]

/-- What striking out at each node keeps, a round keeps. -/
theorem strike_induction {P : DomTable ν → Prop}
    (hstep : ∀ t, P t → ∀ x ∈ preds, P (t.strikeAt x.1 x.2)) (ht : P t) : P (strike preds t) := by
  induction preds generalizing t with
  | nil => exact ht
  | cons y preds ih =>
    exact ih (fun t ht x hx => hstep t ht x (List.mem_cons_of_mem _ hx))
      (hstep t ht y List.mem_cons_self)

/-- What striking out at each node keeps, the settled table has, and striking out changes
nothing any more. -/
theorem settle_induction {P : DomTable ν → Prop}
    (hstep : ∀ t, P t → ∀ x ∈ preds, P (t.strikeAt x.1 x.2)) (ht : P t) :
    P (settle preds t) ∧
      ∀ x ∈ preds, (settle preds t).strikeAt x.1 x.2 = settle preds t := by
  fun_induction settle preds t with
  | case1 t struck hlt ih => exact ih (strike_induction hstep ht)
  | case2 t struck hge =>
    obtain ⟨hle, hsame⟩ := size_strike_le preds t
    have heq : struck.size = t.size := Nat.le_antisymm hle (Nat.le_of_not_lt hge)
    exact ⟨ht, hsame heq⟩

/-- What the equation gives for `v`: the node itself, and what the rows of all its predecessors
hold. -/
def recompute (t : DomTable ν) (v : ν) (preds : List ν) : List ν :=
  v :: match (t.filter fun (p, _) => p ∈ preds).map (·.2) with
    | [] => []
    | first :: rest => first.filter fun d => rest.all fun row => d ∈ row

theorem mem_recompute {d v : ν} {ps : List ν} (h : ∃ p ∈ ps, ∃ r, (p, r) ∈ t) :
    d ∈ t.recompute v ps ↔ d = v ∨ ∀ p ∈ ps, ∀ r, (p, r) ∈ t → d ∈ r := by
  have hrows : ∀ r, r ∈ (t.filter fun (p, _) => p ∈ ps).map (·.2) ↔ ∃ p ∈ ps, (p, r) ∈ t := by
    intro r
    simp [and_comm]
  have hall : (∀ p ∈ ps, ∀ r, (p, r) ∈ t → d ∈ r) ↔
      ∀ r ∈ (t.filter fun (p, _) => p ∈ ps).map (·.2), d ∈ r := by
    simp only [hrows]
    exact ⟨fun h r ⟨p, hp, hr⟩ => h p hp r hr, fun h p hp r hr => h r ⟨p, hp, hr⟩⟩
  obtain ⟨p, hp, r, hr⟩ := h
  have hmem := (hrows r).2 ⟨p, hp, hr⟩
  rw [hall, recompute, List.mem_cons]
  cases hcases : (t.filter fun (p, _) => p ∈ ps).map (·.2) with
  | nil =>
    rw [hcases] at hmem
    cases hmem
  | cons first rest => simp

end DomTable

namespace Graph

variable {ν : Type} [DecidableEq ν] {g : Graph ν} {d u v : ν} {ps : List ν} {t : DomTable ν}

/-- Every walk to `v` visits `d`. -/
def Dominates (g : Graph ν) (d v : ν) : Prop := ∀ w, g.IsWalk (w ++ [v]) → d ∈ w ++ [v]

/-- What dominates `v` is `v` or dominates every node with an edge to `v`. -/
theorem Dominates.pred (h : g.Dominates d v) (huv : g.Edge u v) (hne : d ≠ v) :
    g.Dominates d u := by
  intro w hw
  have hmem := h _ (hw.snoc huv)
  rw [List.mem_append, List.mem_singleton] at hmem
  exact hmem.resolve_right hne

/-- What dominates a reachable node is reachable. -/
theorem Dominates.mem_reachable (h : g.Dominates d v) (hv : v ∈ g.reachable) :
    d ∈ g.reachable := by
  obtain ⟨⟨w, hw⟩, -⟩ := mem_reachable_iff.1 hv
  rcases List.mem_append.1 (h w hw) with hd | hd
  · obtain ⟨a, b, rfl⟩ := List.append_of_mem hd
    rw [List.append_assoc, List.cons_append] at hw
    refine mem_reachable_iff.2 ⟨⟨a, hw.stop⟩, Or.inr ?_⟩
    cases b with
    | nil => exact hw.edge.mem_nodes
    | cons x b => exact hw.edge.mem_nodes
  · exact List.mem_singleton.1 hd ▸ hv

/-! ### What striking out keeps -/

/-- A table that has a row for each reachable node, with all its dominators in it, and with
nothing but the entry in the row of the entry. -/
structure Sifted (g : Graph ν) (t : DomTable ν) : Prop where
  keys : t.map (·.1) = g.reachable
  entry : ∀ v row, (v, row) ∈ t → g.entry = some v → ∀ d ∈ row, d = v
  complete : ∀ v row, (v, row) ∈ t → ∀ d, g.Dominates d v → d ∈ row

/-- The table has a row for each reachable node, and for no other. -/
theorem Sifted.exists_row_iff (h : g.Sifted t) : (∃ row, (v, row) ∈ t) ↔ v ∈ g.reachable := by
  rw [← h.keys, List.mem_map]
  constructor
  · rintro ⟨row, hrow⟩
    exact ⟨_, hrow, rfl⟩
  · rintro ⟨⟨_, row⟩, hrow, rfl⟩
    exact ⟨row, hrow⟩

theorem mem_candidates {row : List ν} : (v, row) ∈ g.candidates ↔
    v ∈ g.reachable ∧ row = if g.entry = some v then [v] else g.reachable := by
  simp only [candidates, List.mem_map, Prod.mk.injEq]
  constructor
  · rintro ⟨u, hu, rfl, rfl⟩
    exact ⟨hu, rfl⟩
  · rintro ⟨hv, rfl⟩
    exact ⟨v, hv, rfl, rfl⟩

theorem sifted_candidates (g : Graph ν) : g.Sifted g.candidates := by
  refine ⟨by simp [candidates, Function.comp_def], ?_, ?_⟩
  · intro v row h he d hd
    rw [(mem_candidates.1 h).2, if_pos he] at hd
    exact List.mem_singleton.1 hd
  · intro v row h d hd
    obtain ⟨hv, rfl⟩ := mem_candidates.1 h
    split
    · next he => simpa using hd [] (isWalk_singleton.2 he)
    · exact hd.mem_reachable hv

/-- The predecessors that the computation looks at. -/
theorem mem_reachablePreds {ps : List ν} :
    (v, ps) ∈ g.reachablePreds ↔ v ∈ g.reachable ∧ g.entry ≠ some v ∧
      ps = g.reachable.filter fun u => v ∈ g.succs u := by
  simp only [reachablePreds, List.mem_map, List.mem_filter, Prod.exists, Prod.mk.injEq,
    decide_eq_true_iff]
  constructor
  · rintro ⟨x, _, ⟨⟨y, hy, rfl, rfl⟩, hne⟩, rfl, rfl⟩
    refine ⟨hy, hne, ?_⟩
    rw [List.filter_map, List.map_map]
    simp [Function.comp_def]
  · rintro ⟨hv, hne, rfl⟩
    refine ⟨v, g.succs v, ⟨⟨v, hv, rfl, rfl⟩, hne⟩, rfl, ?_⟩
    rw [List.filter_map, List.map_map]
    simp [Function.comp_def]

theorem Sifted.strikeAt (h : g.Sifted t) {x : ν × List ν} (hx : x ∈ g.reachablePreds) :
    g.Sifted (t.strikeAt x.1 x.2) := by
  obtain ⟨v, ps⟩ := x
  obtain ⟨-, -, rfl⟩ := mem_reachablePreds.1 hx
  refine ⟨(t.keys_strikeAt _ _).trans h.keys, ?_, ?_⟩
  · intro w row hrow he d hd
    obtain ⟨old, hold, -, hmem⟩ := DomTable.mem_strikeAt hrow
    exact h.entry w old hold he d ((hmem d).1 hd).1
  · intro w row hrow d hd
    obtain ⟨old, hold, -, hmem⟩ := DomTable.mem_strikeAt hrow
    refine (hmem d).2 ⟨h.complete w old hold d hd, ?_⟩
    rintro rfl
    by_cases hne : d = w
    · exact Or.inl hne
    · -- a dominator of `w` dominates the predecessors, and so it is in their rows
      refine Or.inr fun p hp r hr => h.complete p r hr d (hd.pred ?_ hne)
      exact of_decide_eq_true (List.mem_filter.1 hp).2

/-! ### The tables of the computation -/

/-- The tables that the computation goes through. -/
inductive Struck (g : Graph ν) : DomTable ν → Prop
  | start : Struck g g.candidates
  | strike {t : DomTable ν} {x : ν × List ν} : Struck g t → x ∈ g.reachablePreds →
      Struck g (t.strikeAt x.1 x.2)

/-- The computation ends with one of its tables, and striking out changes nothing there. -/
theorem struck_dominators (g : Graph ν) : g.Struck g.dominators ∧
    ∀ x ∈ g.reachablePreds, g.dominators.strikeAt x.1 x.2 = g.dominators :=
  DomTable.settle_induction (fun _ ht _ hx => ht.strike hx) .start

namespace Struck

theorem sifted (h : g.Struck t) : g.Sifted t := by
  induction h with
  | start => exact g.sifted_candidates
  | strike _ hx ih => exact ih.strikeAt hx

/-- A node with a row to recompute has a predecessor with a row. -/
theorem exists_pred_row (h : g.Struck t) (hv : (v, ps) ∈ g.reachablePreds) :
    ∃ p ∈ ps, p ∈ g.reachable ∧ ∃ r, (p, r) ∈ t := by
  obtain ⟨hreach, hne, rfl⟩ := mem_reachablePreds.1 hv
  obtain ⟨⟨w, hw⟩, -⟩ := mem_reachable_iff.1 hreach
  rcases List.eq_nil_or_concat w with rfl | ⟨w, u, rfl⟩
  · exact absurd (isWalk_singleton.1 hw) hne
  · rw [List.concat_eq_append] at hw
    obtain ⟨hu, huv⟩ := isWalk_snoc.1 hw
    have hmem : u ∈ g.reachable := mem_reachable_iff.2 ⟨⟨w, hu⟩, Or.inr huv.mem_nodes⟩
    exact ⟨u, List.mem_filter.2 ⟨hmem, decide_eq_true huv⟩, hmem,
      h.sifted.exists_row_iff.2 hmem⟩

/-- What the equation gives, in a table of the computation. -/
theorem mem_recompute (h : g.Struck t) (hv : (v, ps) ∈ g.reachablePreds) :
    d ∈ t.recompute v ps ↔ d = v ∨ ∀ p ∈ ps, ∀ r, (p, r) ∈ t → d ∈ r := by
  obtain ⟨p, hp, -, hrow⟩ := h.exists_pred_row hv
  exact DomTable.mem_recompute ⟨p, hp, hrow⟩

/-- **A recomputed row is contained in the old one.** -/
theorem recompute_subset {row : List ν} (h : g.Struck t) (hv : (v, ps) ∈ g.reachablePreds)
    (hrow : (v, row) ∈ t) : t.recompute v ps ⊆ row := by
  induction h generalizing v ps row with
  | start =>
    intro d hd
    obtain ⟨hreach, hne, -⟩ := mem_reachablePreds.1 hv
    obtain ⟨-, rfl⟩ := mem_candidates.1 hrow
    rw [if_neg hne]
    rcases (Struck.start.mem_recompute hv).1 hd with rfl | hall
    · exact hreach
    · -- the rows of the predecessors hold reachable nodes
      obtain ⟨p, hp, hpreach, r, hr⟩ := Struck.start.exists_pred_row hv
      have hd := hall p hp r hr
      rw [(mem_candidates.1 hr).2] at hd
      split at hd
      · exact List.mem_singleton.1 hd ▸ hpreach
      · exact hd
  | @strike t x ht hx ih =>
    intro d hd
    obtain ⟨old, hold, -, hmem⟩ := DomTable.mem_strikeAt hrow
    -- no row was shorter before, so that the equation gave no less
    have hbefore : d = v ∨ ∀ p ∈ ps, ∀ r, (p, r) ∈ t → d ∈ r := by
      refine (((ht.strike hx).mem_recompute hv).1 hd).imp_right fun hall p hp r hr => ?_
      obtain ⟨new, hnew, hsub⟩ := DomTable.exists_mem_strikeAt x.1 x.2 hr
      exact hsub (hall p hp new hnew)
    refine (hmem d).2 ⟨ih hv hold ((ht.mem_recompute hv).2 hbefore), ?_⟩
    rintro rfl
    rw [(mem_reachablePreds.1 hx).2.2]
    rwa [(mem_reachablePreds.1 hv).2.2] at hbefore

/-- What striking out leaves in the row of a node is what the equation gives for it. -/
theorem mem_strikeAt_iff {row : List ν} (h : g.Struck t) (hv : (v, ps) ∈ g.reachablePreds)
    (hrow : (v, row) ∈ t.strikeAt v ps) : d ∈ row ↔ d ∈ t.recompute v ps := by
  obtain ⟨old, hold, -, hmem⟩ := DomTable.mem_strikeAt hrow
  rw [hmem, h.mem_recompute hv, imp_iff_right rfl, and_iff_right_iff_imp]
  exact fun hd => h.recompute_subset hv hold ((h.mem_recompute hv).2 hd)

end Struck

/-- The computed table keeps all dominators. -/
theorem sifted_dominators (g : Graph ν) : g.Sifted g.dominators :=
  g.struck_dominators.1.sifted

/-- The computed table solves the equation. -/
theorem mem_dominators_iff {row : List ν} (hv : (v, ps) ∈ g.reachablePreds)
    (hrow : (v, row) ∈ g.dominators) : d ∈ row ↔ d ∈ g.dominators.recompute v ps := by
  obtain ⟨hstruck, hfix⟩ := g.struck_dominators
  exact hstruck.mem_strikeAt_iff hv ((hfix _ hv).symm ▸ hrow)

/-! ### Reading the table -/

theorem lookup_dominators {row : List ν} :
    g.dominators.lookup v = some row ↔ (v, row) ∈ g.dominators :=
  lookup_eq_some_iff_mem (g.sifted_dominators.keys ▸ g.nodup_reachable)

/-- The table has a row for each reachable node. -/
theorem isReachable_dominators : g.dominators.isReachable v = true ↔ v ∈ g.reachable := by
  rw [DomTable.isReachable, Option.isSome_iff_exists, ← g.sifted_dominators.exists_row_iff]
  simp only [lookup_dominators]

/-- A candidate that is left in the row of `v` is on every walk to `v`. -/
theorem dominates_of_mem_row {row : List ν} (hrow : (v, row) ∈ g.dominators) (hd : d ∈ row) :
    g.Dominates d v := by
  have hsifted := g.sifted_dominators
  intro w hw
  refine IsWalk.snocInduction (motive := fun w v => v ∈ g.reachable →
    ∀ row, (v, row) ∈ g.dominators → d ∈ row → d ∈ w ++ [v]) ?_ ?_ w v hw
    (hsifted.exists_row_iff.1 ⟨row, hrow⟩) row hrow hd
  · intro e he _ row hrow hd
    simpa using hsifted.entry e row hrow he d hd
  · rintro w u v hw huv ih hv row hrow hd
    by_cases he : g.entry = some v
    · exact List.mem_append_right _ (List.mem_singleton.2 (hsifted.entry v row hrow he d hd))
    · -- the row of `v` solves the equation
      have hu : u ∈ g.reachable := mem_reachable_iff.2 ⟨⟨w, hw⟩, Or.inr huv.mem_nodes⟩
      have hpreds := mem_reachablePreds.2 ⟨hv, he, rfl⟩
      rw [mem_dominators_iff hpreds hrow, g.struck_dominators.1.mem_recompute hpreds] at hd
      rcases hd with rfl | hall
      · exact List.mem_append_right _ (List.mem_singleton.2 rfl)
      · obtain ⟨rowu, hrowu⟩ := hsifted.exists_row_iff.2 hu
        have hp : u ∈ g.reachable.filter fun u => v ∈ g.succs u :=
          List.mem_filter.2 ⟨hu, decide_eq_true huv⟩
        exact List.mem_append_left _ (ih hu rowu hrowu (hall u hp rowu hrowu))

/-- The row of a reachable node holds the nodes that dominate it. -/
theorem dominates_dominators (hv : v ∈ g.reachable) :
    g.dominators.dominates d v = true ↔ g.Dominates d v := by
  obtain ⟨row, hrow⟩ := g.sifted_dominators.exists_row_iff.2 hv
  rw [DomTable.dominates, lookup_dominators.2 hrow]
  simp only [decide_eq_true_iff]
  exact ⟨dominates_of_mem_row hrow, g.sifted_dominators.complete v row hrow d⟩

/-- A node that no walk reaches is dominated by every node. -/
theorem dominates_of_not_mem_reachable (hv : v ∉ g.reachable) :
    g.dominators.dominates d v = true := by
  have hnone : g.dominators.lookup v = none := by
    by_contra h
    obtain ⟨row, hrow⟩ := Option.ne_none_iff_exists'.1 h
    exact hv (g.sifted_dominators.exists_row_iff.1 ⟨row, lookup_dominators.1 hrow⟩)
  rw [DomTable.dominates, hnone]

/-- What the table says about any two nodes. -/
theorem dominates_dominators_iff :
    g.dominators.dominates d v = true ↔ (v ∈ g.reachable → g.Dominates d v) := by
  by_cases hv : v ∈ g.reachable
  · rw [dominates_dominators hv, imp_iff_right hv]
  · exact iff_of_true (dominates_of_not_mem_reachable hv) fun h => absurd h hv

end Graph

end BarrierLowering
