import BarrierLowering.Proofs.Locality
import BarrierLowering.Proofs.Routes

/-!
# Kernels that have a plan

The analysis looks at maximal acyclic paths, and at one stage for each block. It still finds a plan
for every kernel whose walks treat the barriers alike, and on which no value is carried from before
a barrier to behind it.

## Main definitions

* `Instr.Asks`, `Block.Anchored` — a group query, and a block with the queries in front of the
  barriers.
* `Func.Plannable` — the kernels in question, described by their walks.

## Main results

* `Block.findQueries_of_anchored` — the queries of such a block are found.
* `Survey.Fair.accepts` — a survey goes through paths that agree with each other.
* `Func.plan_of_plannable` — such a kernel has a plan.
-/

namespace BarrierLowering

/-! ### The group queries -/

/-- The last member that a list keeps is the last one that is kept. -/
theorem getLast?_filterMap_of_split {α β : Type} {φ : α → Option β} {l pre post : List α} {x : α}
    {y : β} (h : l = pre ++ x :: post) (hx : φ x = some y) (hpost : ∀ z ∈ post, φ z = none) :
    (l.filterMap φ).getLast? = some y := by
  rw [h, List.filterMap_append, List.filterMap_cons_some hx, List.filterMap_eq_nil_iff.2 hpost,
    List.getLast?_concat]

/-- A call that asks for the rank or for the size, and keeps the answer. -/
def Instr.Asks (rule : NameRule) (kind : CallKind) (i : Instr) : Prop :=
  i.kind rule = kind ∧ i.result.isSome

instance (rule : NameRule) (kind : CallKind) (i : Instr) : Decidable (i.Asks rule kind) :=
  inferInstanceAs (Decidable (_ ∧ _))

namespace Block

variable {rule : NameRule} {kind : CallKind} {blk : Block} {anchor : InstrId}

/-- A block that asks for the rank and for the size. The last instruction that asks for either is
the anchor, and no barrier comes before it. -/
structure Anchored (rule : NameRule) (blk : Block) (anchor : InstrId) : Prop where
  rank : ∃ i ∈ blk.instrs, i.Asks rule .threadRank
  size : ∃ i ∈ blk.instrs, i.Asks rule .groupSize
  last : ∃ pre a post, blk.instrs = pre ++ a :: post ∧ a.id = anchor ∧
    (a.Asks rule .threadRank ∨ a.Asks rule .groupSize) ∧
    (∀ i ∈ post, ¬ i.Asks rule .threadRank ∧ ¬ i.Asks rule .groupSize) ∧
    ∀ i ∈ pre, i.kind rule ≠ .barrier

/-- The query that the search for one of a kind finds is the last one. -/
theorem lastQuery?_of_split {pre post : List Instr} {i : Instr} {v : ValueId}
    (h : blk.instrs = pre ++ i :: post) (hkind : i.kind rule = kind) (hv : i.result = some v)
    (hpost : ∀ j ∈ post, ¬ j.Asks rule kind) :
    blk.lastQuery? rule kind = some ⟨pre.length, i.id, v, i.ty⟩ := by
  have hsplit : blk.instrs.zipIdx =
      pre.zipIdx ++ (i, pre.length) :: post.zipIdx (pre.length + 1) := by
    rw [h, List.zipIdx_append, List.zipIdx_cons, Nat.zero_add]
  refine getLast?_filterMap_of_split hsplit ?_ ?_
  · simp only [hv, if_pos hkind]
  · rintro ⟨j, pos⟩ hj
    have hnot := hpost j (List.fst_mem_of_mem_zipIdx hj)
    cases hres : j.result with
    | none => simp only [hres]
    | some u =>
      simp only [hres]
      exact if_neg fun hj => hnot ⟨hj, by rw [hres]; rfl⟩

theorem exists_lastQuery? (h : ∃ i ∈ blk.instrs, i.Asks rule kind) :
    ∃ pre i post v, blk.instrs = pre ++ i :: post ∧ i.Asks rule kind ∧
      blk.lastQuery? rule kind = some ⟨pre.length, i.id, v, i.ty⟩ := by
  obtain ⟨pre, i, post, hsplit, hasks, hpost⟩ := exists_last h
  obtain ⟨v, hv⟩ := Option.isSome_iff_exists.1 hasks.2
  exact ⟨pre, i, post, v, hsplit, hasks, lastQuery?_of_split hsplit hasks.1 hv hpost⟩

/-- The group queries of an anchored block are found, and the anchor is the last of them. -/
theorem findQueries_of_anchored (h : blk.Anchored rule anchor) :
    ∃ queries, blk.findQueries rule = .ok queries ∧ queries.anchor = anchor := by
  obtain ⟨pre, a, post, hsplit, rfl, hasks, hpost, hquiet⟩ := h.last
  obtain ⟨preR, x, postR, u, hsplitR, hasksR, hrank⟩ := exists_lastQuery? h.rank
  obtain ⟨preS, s, postS, v, hsplitS, hasksS, hsize⟩ := exists_lastQuery? h.size
  have htake : ∀ n, n = pre.length →
      (blk.instrs.take n).find? (fun i => i.kind rule = .barrier) = none := by
    rintro n rfl
    rw [hsplit, List.take_left, List.find?_eq_none]
    exact fun i hi => by simpa using hquiet i hi
  -- no query is behind the anchor
  have hle : ∀ {kind : CallKind} {pre' : List Instr} {i : Instr} {post' : List Instr},
      blk.instrs = pre' ++ i :: post' → i.Asks rule kind →
      kind = .threadRank ∨ kind = .groupSize → pre'.length ≤ pre.length := by
    intro kind pre' i post' hsplit' hi hkind
    by_contra hlt
    obtain ⟨mid, -, rfl⟩ := exists_between (hsplit.symm.trans hsplit') (Nat.lt_of_not_le hlt)
    have hnot := hpost i (by simp)
    rcases hkind with rfl | rfl
    · exact hnot.1 hi
    · exact hnot.2 hi
  have hleR := hle hsplitR hasksR (Or.inl rfl)
  have hleS := hle hsplitS hasksS (Or.inr rfl)
  rcases hasks with ⟨hkind, hres⟩ | ⟨hkind, hres⟩
  · -- the anchor is the last query of the rank
    obtain ⟨w, hw⟩ := Option.isSome_iff_exists.1 hres
    have hlast := lastQuery?_of_split hsplit hkind hw fun i hi => (hpost i hi).1
    rw [findQueries, hlast, hsize]
    simp only [Nat.not_lt.2 hleS, if_false, htake _ rfl]
    exact ⟨_, rfl, rfl⟩
  · -- the anchor is the last query of the size, and none of the rank is in its place
    obtain ⟨w, hw⟩ := Option.isSome_iff_exists.1 hres
    have hlast := lastQuery?_of_split hsplit hkind hw fun i hi => (hpost i hi).2
    have hlt : preR.length < pre.length := by
      refine Nat.lt_of_le_of_ne hleR fun hlen => ?_
      obtain ⟨-, htail⟩ := List.append_inj (hsplitR.symm.trans hsplit) hlen
      have hboth := hasksR.1
      rw [(List.cons.inj htail).1, hkind] at hboth
      cases hboth
    rw [findQueries, hrank, hlast]
    simp only [hlt, if_true, htake _ rfl]
    exact ⟨_, rfl, rfl⟩

end Block

/-! ### Surveys that are not broken off -/

namespace Survey

variable {m : BarrierMap} {order : List InstrId} {s : Survey} {p : Path BlockId}
  {ps : List (Path BlockId)}

/-- A path comes to all blocks with barriers, in the given order, or to none; a path to an exit
comes to all. -/
structure Agrees (m : BarrierMap) (order : List InstrId) (p : Path BlockId) : Prop where
  visits : p.nodes.filter m.holds ≠ [] →
    (∀ b, m.holds b = true → b ∈ p.nodes) ∧ m.length ≤ (p.nodes.filter m.holds).length ∧
      (p.nodes.filter m.holds).flatMap m.barriersOf = order
  exits : p.finish = .exit → p.nodes.filter m.holds ≠ []

/-- A survey has come to each block with barriers on every path to an exit, and knows no order but
the given one. -/
structure Fair (m : BarrierMap) (order : List InstrId) (s : Survey) : Prop where
  given : ∀ first, s.order = some first → first = order
  visits : ∀ b, m.holds b = true → s.exitPaths ≤ s.exitVisits.count b

theorem fair_start (m : BarrierMap) (order : List InstrId) : Fair m order start :=
  ⟨nofun, fun _ _ => Nat.zero_le _⟩

/-- Counting a path keeps a survey fair. -/
theorem Fair.count (h : Fair m order s) (hp : Agrees m order p) :
    Fair m order (s.count p (p.nodes.filter m.holds)) where
  given := by
    rw [order_count]
    exact h.given
  visits := by
    intro b hb
    unfold Survey.count
    split
    · next hexit =>
      obtain ⟨hall, -⟩ := hp.visits (hp.exits (of_decide_eq_true hexit))
      have hmem : b ∈ p.nodes.filter m.holds := List.mem_filter.2 ⟨hall b hb, hb⟩
      have hpos := List.count_pos_iff.2 hmem
      have hle := h.visits b hb
      show s.exitPaths + 1 ≤ (p.nodes.filter m.holds ++ s.exitVisits).count b
      rw [List.count_append]
      omega
    · exact h.visits b hb

/-- One more path that agrees. -/
theorem Fair.visit (h : Fair m order s) (hp : Agrees m order p) :
    ∃ s', Survey.visit m s p = (s', none) ∧ Fair m order s' := by
  have hfair := h.count hp
  unfold Survey.visit
  dsimp only
  by_cases hnil : p.nodes.filter m.holds = []
  · have hexit : p.isExit = false := decide_eq_false fun hfin => hp.exits hfin hnil
    rw [hnil] at hfair ⊢
    simp only [hexit, List.isEmpty_nil, Bool.not_true, Bool.or_false, Bool.and_false,
      Bool.false_eq_true, if_false, if_true]
    exact ⟨_, rfl, hfair⟩
  · obtain ⟨-, hlen, horder⟩ := hp.visits hnil
    rw [decide_eq_false (Nat.not_lt.2 hlen), List.isEmpty_eq_false_iff.2 hnil, horder]
    simp only [Bool.false_and, Bool.false_eq_true, if_false]
    cases hfirst : (s.count p (p.nodes.filter m.holds)).order with
    | none => exact ⟨_, rfl, fun first hsome => (Option.some.inj hsome).symm, hfair.visits⟩
    | some first =>
      have heq := hfair.given first hfirst
      exact ⟨_, by simp only [heq, if_true], hfair⟩

/-- **A survey goes through paths that agree.** -/
theorem Fair.accepts (h : Fair m order s) (hps : ∀ p ∈ ps, Agrees m order p) :
    ∃ s', (Survey.visit m).Accepts s ps s' ∧ Fair m order s' := by
  induction ps generalizing s with
  | nil => exact ⟨s, .nil s, h⟩
  | cons p ps ih =>
    obtain ⟨s', hvisit, hfair⟩ := h.visit (hps p List.mem_cons_self)
    obtain ⟨s'', haccepts, hfair'⟩ := ih hfair fun q hq => hps q (List.mem_cons_of_mem _ hq)
    exact ⟨s'', .cons hvisit haccepts, hfair'⟩

end Survey

/-! ### Where the paths end -/

/-- The path along a route ends at a node without successors, or on a cycle. -/
theorem Graph.exists_end_of_runs {ν : Type} [DecidableEq ν] {g : Graph ν} {r : Route ν}
    (h : r.Runs g.entry g.succs) :
    ∃ w u, r.walk = w ++ [u] ∧ g.IsWalk (w ++ [u]) ∧ (r.back = none → g.succs u = []) ∧
      (g.succs u = [] ∨ g.OnCycle u) := by
  obtain ⟨e, he, hhead⟩ := h.start
  obtain ⟨w, u, hwalk⟩ : ∃ w u, r.walk = w ++ [u] := by
    refine ⟨_, _, (List.dropLast_append_getLast ?_).symm⟩
    rintro hnil
    rw [hnil] at hhead
    cases hhead
  have hlast : u ∈ r.walk.getLast? := by rw [hwalk, List.getLast?_concat]; rfl
  refine ⟨w, u, hwalk, ⟨⟨e, he, hwalk ▸ hhead⟩, hwalk ▸ h.edges⟩,
    fun hnone => h.exit hnone u hlast, ?_⟩
  cases hback : r.back with
  | none => exact Or.inl (h.exit hback u hlast)
  | some v =>
    obtain ⟨hv, -⟩ := h.back v hback
    obtain ⟨w₁, w₂, hsplit⟩ := List.append_of_mem hv
    have hchain := isChain_stops h
    rw [Route.stops, hback, hsplit, List.append_assoc] at hchain
    refine Or.inr (onCycle_of_revisit (v := v) (w := w₂) hchain.right_of_append ?_)
    rw [hsplit, List.getLast?_append_cons] at hlast
    exact List.mem_of_getLast? hlast

/-! ### Walks that treat the barriers alike -/

namespace Func

variable {f : Func} {rule : NameRule} {config : Config} {anchor : InstrId} {order : List InstrId}
  {w w' : List BlockId} {b c : BlockId} {p : Path BlockId}

/-- The barriers run in one order on all walks to an exit, and no value is carried past one. -/
structure Plannable (rule : NameRule) (f : Func) (anchor : InstrId) : Prop where
  barriers_ne_nil : f.barriers rule ≠ []
  anchored : ∃ entry, f.entry? = some entry ∧ entry.Anchored rule anchor
  /-- Control can always go on to a block without successors. -/
  ends : ∀ w b, f.graph.IsWalk (w ++ [b]) →
    ∃ c, Relation.ReflTransGen f.graph.Edge b c ∧ f.successors c = []
  /-- A walk to such a block runs each barrier once. -/
  once : ∀ w b, f.graph.IsWalk (w ++ [b]) → f.successors b = [] →
    (f.barriersOn rule (w ++ [b])).Perm (f.barriers rule)
  /-- Two walks to such blocks run the barriers in the same order. -/
  alike : ∀ w b w' b', f.graph.IsWalk (w ++ [b]) → f.successors b = [] →
    f.graph.IsWalk (w' ++ [b']) → f.successors b' = [] →
    f.barriersOn rule (w ++ [b]) = f.barriersOn rule (w' ++ [b'])
  /-- A walk to a block on a cycle has run no barrier, or all of them. -/
  cycles : ∀ w b, f.graph.IsWalk (w ++ [b]) → f.graph.OnCycle b →
    f.barriersOn rule (w ++ [b]) = [] ∨ ∀ i ∈ f.barriers rule, i ∈ f.barriersOn rule (w ++ [b])
  /-- No walk reads a value after it has run the anchor, a definition of the value and a barrier, in
  this order. -/
  kept : ∀ v is, f.ReadAfter v is → ∀ a d z, [a, d, z].Sublist is → a.id = anchor →
    d.result = some v → z.kind rule ≠ .barrier

theorem mem_barriers_of_mem_barriersOf {i : InstrId} (hi : i ∈ f.barriersOf rule b) :
    i ∈ f.barriers rule := by
  obtain ⟨z, hz, rfl⟩ := List.mem_map.1 hi
  obtain ⟨hz, hkind⟩ := List.mem_filter.1 hz
  exact List.mem_map_of_mem (List.mem_filter.2 ⟨mem_instrs_of_mem_instrsOf hz, hkind⟩)

/-- A walk that has run a barrier has come to its block. -/
theorem mem_of_mem_barriersOn (hinstrs : (f.instrs.map (·.id)).Nodup) {i : InstrId}
    (hi : i ∈ f.barriersOf rule b) (hw : i ∈ f.barriersOn rule w) : b ∈ w := by
  obtain ⟨c, hc, hw⟩ := mem_barriersOn_iff.1 hw
  obtain ⟨z, hz, rfl⟩ := List.mem_map.1 hi
  obtain ⟨z', hz', hid⟩ := List.mem_map.1 hw
  obtain ⟨rfl, -⟩ := eq_of_mem_instrsOf hinstrs (List.mem_filter.1 hz).1 (List.mem_filter.1 hz').1
    hid.symm
  exact hc

namespace Plannable

variable (hn : (f.instrs.map (·.id)).Nodup)

include hn in
/-- A walk to an exit comes to the blocks of all barriers. -/
theorem mem_of_exit (h : f.Plannable rule anchor) (hw : f.graph.IsWalk (w ++ [b]))
    (hb : f.successors b = []) (hc : f.barriersOf rule c ≠ []) : c ∈ w ++ [b] := by
  obtain ⟨i, hi⟩ := List.exists_mem_of_ne_nil _ hc
  refine mem_of_mem_barriersOn hn hi ?_
  exact (h.once w b hw hb).mem_iff.2 (mem_barriers_of_mem_barriersOf hi)

include hn in
/-- On a walk to an exit no barrier runs twice. -/
theorem nodup_of_exit (h : f.Plannable rule anchor) (hw : f.graph.IsWalk (w ++ [b]))
    (hb : f.successors b = []) : (f.barriersOn rule (w ++ [b])).Nodup :=
  (h.once w b hw hb).nodup_iff.2 (hn.sublist (List.Sublist.map _ List.filter_sublist))

/-- Some walk without repeats leads to an exit. -/
theorem exists_exit (h : f.Plannable rule anchor) :
    ∃ w b, f.graph.IsWalk (w ++ [b]) ∧ (w ++ [b]).Nodup ∧ f.successors b = [] := by
  obtain ⟨entry, hentry, -⟩ := h.anchored
  have hstart : f.graph.IsWalk ([] ++ [entry.id]) :=
    Graph.isWalk_singleton.2 (by rw [graph, entryId?, hentry, Option.map_some])
  obtain ⟨b, hreach, hb⟩ := h.ends [] entry.id hstart
  obtain ⟨w, hw, -⟩ := hstart.exists_reach hreach
  obtain ⟨w', hw', hnd, -⟩ := hw.exists_nodup (p := fun _ => false) fun _ hfalse =>
    absurd hfalse Bool.false_ne_true
  exact ⟨w', b, hw', hnd, hb⟩

include hn in
/-- No block with barriers is on a cycle. -/
theorem not_onCycle (h : f.Plannable rule anchor) (hb : f.barriersOf rule b ≠ []) :
    ¬ f.graph.OnCycle b := by
  intro hcycle
  obtain ⟨i, hi⟩ := List.exists_mem_of_ne_nil _ hb
  obtain ⟨w, x, hw, -, hx⟩ := h.exists_exit
  obtain ⟨w₁, w₂, hsplit⟩ := List.append_of_mem (h.mem_of_exit hn hw hx hb)
  rw [hsplit] at hw
  -- a walk that goes round the cycle once and then on to an exit runs the barrier twice
  obtain ⟨v, hv⟩ := Graph.exists_isChain_of_transGen hcycle
  have hround : f.graph.IsWalk (w₁ ++ b :: v ++ [b]) := by
    simpa using hw.stop.extend hv
  obtain ⟨y, hreach, hy⟩ := h.ends _ b hround
  obtain ⟨w', hw', hpre⟩ := hround.exists_reach hreach
  obtain ⟨rest, hrest⟩ := hpre
  have hnd := h.nodup_of_exit hn hw' hy
  rw [← hrest, barriersOn_append, barriersOn_append, List.nodup_append, List.nodup_append] at hnd
  obtain ⟨⟨-, -, hdisj⟩, -, -⟩ := hnd
  have hmem : ∀ w, b ∈ w → i ∈ f.barriersOn rule w := fun w hbw =>
    mem_barriersOn_iff.2 ⟨b, hbw, hi⟩
  exact hdisj i (hmem _ (by simp)) i (hmem _ (by simp)) rfl

include hn in
/-- A walk that ends at an exit or on a cycle has run no barrier, or what a walk to an exit runs. -/
theorem barriersOn_eq (h : f.Plannable rule anchor) (hw : f.graph.IsWalk (w ++ [b]))
    (hend : f.successors b = [] ∨ f.graph.OnCycle b) (hne : f.barriersOn rule (w ++ [b]) ≠ [])
    (hw' : f.graph.IsWalk (w' ++ [c])) (hc : f.successors c = []) :
    f.barriersOn rule (w ++ [b]) = f.barriersOn rule (w' ++ [c]) := by
  rcases hend with hb | hcycle
  · exact h.alike w b w' c hw hb hw' hc
  · have hall := (h.cycles w b hw hcycle).resolve_left hne
    -- the walk has run all barriers, so it runs none on the way to an exit
    obtain ⟨x, hreach, hx⟩ := h.ends w b hw
    obtain ⟨v, hv, rest, hrest⟩ := hw.exists_reach hreach
    have hnd := h.nodup_of_exit hn hv hx
    rw [← hrest, barriersOn_append, List.nodup_append] at hnd
    have hnil : f.barriersOn rule rest = [] := by
      rw [List.eq_nil_iff_forall_not_mem]
      intro i hi
      refine hnd.2.2 i (hall i ?_) i hi rfl
      obtain ⟨y, -, hi⟩ := mem_barriersOn_iff.1 hi
      exact mem_barriers_of_mem_barriersOf hi
    rw [h.alike w' c v x hw' hc hv hx, ← hrest, barriersOn_append _ rest, hnil, List.append_nil]

include hn in
/-- The paths along the routes agree on the barriers. -/
theorem agrees (h : f.Plannable rule anchor) (hids : f.blockIds.Nodup)
    (hw : f.graph.IsWalk (w ++ [b])) (hb : f.successors b = []) {r : Route BlockId}
    (hr : r.Runs f.graph.entry f.graph.succs) (hp : p.course = r.course) :
    Survey.Agrees (f.barrierMap rule) (f.barriersOn rule (w ++ [b])) p := by
  obtain ⟨w', u, hwalk, hw', hexit, hend⟩ := Graph.exists_end_of_runs hr
  rw [succs_graph] at hexit hend
  have hnodes : p.nodes = w' ++ [u] := (congrArg Prod.fst hp).trans hwalk
  have hvisited :
      (p.nodes.filter (f.barrierMap rule).holds).flatMap (f.barrierMap rule).barriersOf =
      f.barriersOn rule (w' ++ [u]) := by rw [barriersOn_eq_visited hids, hnodes]
  have hholds : ∀ {x}, (f.barrierMap rule).holds x = true ↔ f.barriersOf rule x ≠ [] := by
    intro x
    rw [holds_barrierMap hids, decide_eq_true_iff]
  refine ⟨fun hne => ?_, fun hfin hnil => ?_⟩
  · -- a path that comes to a block with barriers runs them all
    obtain ⟨x, hx⟩ := List.exists_mem_of_ne_nil _ hne
    obtain ⟨hx, hxb⟩ := List.mem_filter.1 hx
    have hruns : f.barriersOn rule (w' ++ [u]) ≠ [] := by
      rw [barriersOn_eq_flatMap, Ne, List.flatMap_eq_nil_iff]
      exact fun hnil => hholds.1 hxb (hnil x (hnodes ▸ hx))
    have horder := h.barriersOn_eq hn hw' hend hruns hw hb
    have hall : ∀ y, (f.barrierMap rule).holds y = true → y ∈ p.nodes := by
      intro y hy
      obtain ⟨i, hi⟩ := List.exists_mem_of_ne_nil _ (hholds.1 hy)
      rw [hnodes]
      refine mem_of_mem_barriersOn hn hi ?_
      rw [horder]
      exact (h.once w b hw hb).mem_iff.2 (mem_barriers_of_mem_barriersOf hi)
    refine ⟨hall, ?_, hvisited.trans horder⟩
    rw [barrierMap_eq hids, List.length_map]
    refine (List.subperm_of_subset (nodup_barrierHomes hids) fun y hy => ?_).length_le
    have hy := hholds.2 ((mem_barrierHomes_iff hids).1 hy)
    rw [← barrierMap_eq hids]
    exact List.mem_filter.2 ⟨hall y hy, hy⟩
  · have hback : r.back = none := by
      have hcourse : (if r.back.isSome then PathEnd.backEdge else .exit) = .exit :=
        (congrArg Prod.snd hp).symm.trans hfin
      cases hback : r.back with
      | none => rfl
      | some v => rw [hback] at hcourse; cases hcourse
    have hperm := h.once w' u hw' (hexit hback)
    rw [← hvisited, hnil] at hperm
    exact h.barriers_ne_nil hperm.symm.eq_nil

include hn in
/-- The survey of the paths comes to its end, with the barriers in the order of the walks. -/
theorem exists_survey (h : f.Plannable rule anchor) (hids : f.blockIds.Nodup) {maxPaths : Nat}
    (hpaths : f.graph.routes.length ≤ maxPaths) :
    ∃ w b s, f.graph.IsWalk (w ++ [b]) ∧ f.successors b = [] ∧
      f.survey maxPaths (f.barrierMap rule) = .ok (f.barriersOn rule (w ++ [b]), s) ∧
      Survey.Fair (f.barrierMap rule) (f.barriersOn rule (w ++ [b])) s := by
  obtain ⟨w, b, hw, hnd, hb⟩ := h.exists_exit
  obtain ⟨ps, hcourses, -, hvisit⟩ := f.graph.exists_accepted_paths
  have hroute : ∀ p ∈ ps, ∃ r : Route BlockId,
      r.Runs f.graph.entry f.graph.succs ∧ p.course = r.course := by
    intro p hp
    have hmem := List.mem_map_of_mem (f := Path.course) hp
    rw [hcourses] at hmem
    obtain ⟨r, hr, hcourse⟩ := List.mem_map.1 hmem
    exact ⟨r, (Graph.mem_routes_iff _ r).1 hr, hcourse.symm⟩
  have hagrees : ∀ p ∈ ps, Survey.Agrees (f.barrierMap rule) (f.barriersOn rule (w ++ [b])) p := by
    intro p hp
    obtain ⟨r, hr, hcourse⟩ := hroute p hp
    exact h.agrees hn hids hw hb hr hcourse
  obtain ⟨s, haccepts, hfair⟩ := (Survey.fair_start _ _).accepts hagrees
  -- the walk without repeats is one of the paths, and gives the order
  have hexit : (⟨w ++ [b], none⟩ : Route BlockId).Runs f.graph.entry f.graph.succs := by
    refine ⟨hw.start, hw.edges, hnd, fun _ u hu => ?_, nofun⟩
    rw [List.getLast?_concat] at hu
    rw [← Option.some.inj hu, succs_graph, hb]
  obtain ⟨p, hp, hcourse⟩ : ∃ p ∈ ps, p.course = (w ++ [b], .exit) := by
    have hmem := List.mem_map_of_mem (f := Route.course) ((Graph.mem_routes_iff _ _).2 hexit)
    rw [← hcourses] at hmem
    obtain ⟨p, hp, hcourse⟩ := List.mem_map.1 hmem
    exact ⟨p, hp, hcourse⟩
  have hcovers := (Survey.covers_start (f.barrierMap rule)).append haccepts
  have hne := (hagrees p hp).exits (congrArg Prod.snd hcourse)
  have horder := (hcovers.agree p (by simpa using hp) hne).2
  rw [((hagrees p hp).visits hne).2.2] at horder
  refine ⟨w, b, s, hw, hb, ?_, hfair⟩
  rw [survey, hvisit _ _ _ _ _ _ haccepts hpaths]
  simp only [horder]

include hn in
/-- Every barrier is simple. -/
theorem pattern_eq (h : f.Plannable rule anchor) (hids : f.blockIds.Nodup)
    (hw : f.graph.IsWalk (w ++ [b])) (hb : f.successors b = []) {s : Survey}
    (hs : Survey.Fair (f.barrierMap rule) (f.barriersOn rule (w ++ [b])) s) {i : InstrId}
    (hi : i ∈ f.barriersOf rule c) :
    f.pattern (f.barriersOn rule (w ++ [b])) s c i = .simple := by
  have hne : f.barriersOf rule c ≠ [] := List.ne_nil_of_mem hi
  have hcycle : f.graph.onCycle c = false :=
    Bool.eq_false_iff.2 fun hon => h.not_onCycle hn hne (Graph.onCycle_iff.1 hon)
  have hle := hs.visits c (by rwa [holds_barrierMap hids, decide_eq_true_iff])
  have hmem : i ∈ f.barriersOn rule (w ++ [b]) :=
    (h.once w b hw hb).mem_iff.2 (mem_barriers_of_mem_barriersOf hi)
  rw [pattern, hcycle, if_neg Bool.false_ne_true, if_neg (Nat.not_lt.2 hle),
    if_neg (not_not.2 hmem)]

end Plannable

/-- What makes a draft. -/
theorem draft_eq_of_survey {entry : Block} {queries : Queries} {s : Survey}
    (hentry : f.entry? = some entry) (hne : f.barrierMap config.nameRule ≠ [])
    (hqueries : entry.findQueries config.nameRule = .ok queries)
    (hsurvey : f.survey config.maxPaths (f.barrierMap config.nameRule) = .ok (order, s))
    (hsimple : ∀ r ∈ f.barrierRecords (f.barrierMap config.nameRule) order s,
      r.pattern = .simple) :
    f.draft config = .ok ⟨queries, order,
      f.barrierRecords (f.barrierMap config.nameRule) order s, s.examined⟩ := by
  have hfind : (f.barrierRecords (f.barrierMap config.nameRule) order s).find?
      (fun r => r.pattern ≠ .simple) = none := by
    rw [List.find?_eq_none]
    exact fun r hr => by simpa using hsimple r hr
  rw [draft, hentry]
  simp only [List.isEmpty_eq_false_iff.2 hne, hqueries, hsurvey, bind, Except.bind, pure,
    Except.pure, hfind, Bool.false_eq_true, if_false]

/-- **A kernel whose walks treat the barriers alike has a plan.** -/
theorem plan_of_plannable (f : Func) (config : Config) (anchor : InstrId) (hf : f.defects = [])
    (hn : (f.instrs.map (·.id)).Nodup) (h : f.Plannable config.nameRule anchor)
    (hpaths : {r : Route BlockId | r.Runs f.graph.entry f.graph.edges}.encard ≤ config.maxPaths) :
    ∃ plan, f.plan config = .ok plan := by
  have hwf := defects_eq_nil_iff.1 hf
  have hids := hwf.blocks_nodup
  obtain ⟨entry, hentry, hanchored⟩ := h.anchored
  obtain ⟨queries, hqueries, rfl⟩ := Block.findQueries_of_anchored hanchored
  rw [(Graph.listed_graph f).encard_runs, Nat.cast_le] at hpaths
  obtain ⟨w, b, s, hw, hb, hsurvey, hfair⟩ := h.exists_survey hn hids hpaths
  have hne : f.barrierMap config.nameRule ≠ [] := by
    rw [barrierMap_eq hids, Ne, List.map_eq_nil_iff]
    intro hnil
    exact h.barriers_ne_nil (by rw [← flatMap_barrierHomes hids, hnil, List.flatMap_nil])
  have hdraft := draft_eq_of_survey hentry hne hqueries hsurvey (by
    intro r hr
    obtain ⟨c, -, hr⟩ := List.mem_flatMap.1 hr
    obtain ⟨i, hi, rfl⟩ := List.mem_map.1 hr
    rw [barriersOf_barrierMap hids] at hi
    exact h.pattern_eq hn hids hw hb hfair hi)
  refine ⟨_, plan_eq_ok_iff.2 ⟨hdraft, ?_⟩⟩
  -- a value that crosses a barrier would be carried past it on a walk
  rw [Option.eq_none_iff_forall_ne_some]
  rintro ⟨v, barrier⟩ hcross
  obtain ⟨as, d, bs, z, cs, hread, hd, ⟨y, hy, hanchor⟩, hz, -⟩ :=
    exists_readAfter_of_crossing? hwf hn (opens_of_draft hids hn hdraft) hcross
  have hsub : [y, d, z].Sublist (as ++ d :: (bs ++ z :: cs)) :=
    (List.singleton_sublist.2 hy).append (((List.singleton_sublist.2
      (List.mem_append_right bs List.mem_cons_self))).cons_cons d)
  refine h.kept v _ hread y d z hsub hanchor hd ?_
  obtain ⟨z', hz', hid⟩ := List.mem_map.1 hz
  obtain ⟨hz', hkind⟩ := List.mem_filter.1 hz'
  obtain ⟨c, -, hz'⟩ := List.mem_flatMap.1 hz'
  have hmem := hread.mem_instrs (List.mem_append_right as (List.mem_cons_of_mem d
    (List.mem_append_right bs List.mem_cons_self)))
  rw [List.inj_on_of_nodup_map hn hmem (mem_instrs_of_mem_instrsOf hz') hid.symm]
  exact of_decide_eq_true hkind

/-- The edges of the waiting kernel. -/
theorem edge_waiting {u v : BlockId} (h : waiting.graph.Edge u v) :
    u = ⟨0⟩ ∧ v = ⟨1⟩ ∨ u = ⟨1⟩ ∧ v = ⟨1⟩ ∨ u = ⟨1⟩ ∧ v = ⟨2⟩ := by
  obtain ⟨blk, hblk, hv⟩ := edge_iff.1 h
  obtain ⟨hmem, rfl⟩ := block?_mem hblk
  have hall : ∀ blk ∈ waiting.blocks, ∀ v ∈ blk.term.targets,
      blk.id = ⟨0⟩ ∧ v = ⟨1⟩ ∨ blk.id = ⟨1⟩ ∧ v = ⟨1⟩ ∨ blk.id = ⟨1⟩ ∧ v = ⟨2⟩ := by decide
  exact hall blk hmem v hv

/-- The barrier of the waiting kernel runs in its last block. -/
theorem barriersOn_waiting {w : List BlockId} {b : BlockId} (hw : waiting.graph.IsWalk (w ++ [b])) :
    waiting.barriersOn .intrinsics (w ++ [b]) = if b = ⟨2⟩ then [⟨3⟩] else [] := by
  refine Graph.IsWalk.snocInduction (motive := fun w b =>
    waiting.barriersOn .intrinsics (w ++ [b]) = if b = ⟨2⟩ then [⟨3⟩] else []) ?_ ?_ w b hw
  · intro e he
    obtain rfl : (⟨0⟩ : BlockId) = e := Option.some.inj he
    decide
  · intro w u v _ huv ih
    rw [barriersOn_append, ih]
    rcases edge_waiting huv with ⟨rfl, rfl⟩ | ⟨rfl, rfl⟩ | ⟨rfl, rfl⟩ <;> decide

/-- The waiting kernel tests a value in its loop that is defined behind the anchor, but reads
nothing behind the barrier. -/
theorem plannable_waiting : waiting.Plannable .intrinsics ⟨1⟩ := by
  have hexit : ∀ {w b}, waiting.graph.IsWalk (w ++ [b]) → waiting.successors b = [] →
      waiting.barriersOn .intrinsics (w ++ [b]) = [⟨3⟩] := by
    intro w b hw hb
    have hmem : b ∈ waiting.blockIds := mem_blockIds_of_isWalk (by decide) hw
    have hlast : ∀ b ∈ waiting.blockIds, waiting.successors b = [] → b = ⟨2⟩ := by decide
    rw [barriersOn_waiting hw, if_pos (hlast b hmem hb)]
  refine ⟨by decide, ⟨_, rfl, ⟨_, List.mem_cons_self, by decide⟩,
    ⟨_, List.mem_cons_of_mem _ List.mem_cons_self, by decide⟩,
    [_], _, [_], rfl, rfl, Or.inr (by decide), by decide, by decide⟩, ?_, ?_, ?_, ?_, ?_⟩
  · intro w b hw
    have hmem : b ∈ waiting.blockIds := mem_blockIds_of_isWalk (by decide) hw
    have hloop : Relation.ReflTransGen waiting.graph.Edge ⟨1⟩ ⟨2⟩ := .single (by decide)
    refine ⟨⟨2⟩, ?_, by decide⟩
    simp only [waiting, blockIds, List.map_cons, List.map_nil, List.mem_cons, List.not_mem_nil,
      or_false] at hmem
    rcases hmem with rfl | rfl | rfl
    · exact hloop.head (by decide)
    · exact hloop
    · exact .refl
  · intro w b hw hb
    rw [hexit hw hb]
    decide
  · intro w b w' b' hw hb hw' hb'
    rw [hexit hw hb, hexit hw' hb']
  · intro w b hw _
    rw [barriersOn_waiting hw]
    split
    · exact Or.inr (by decide)
    · exact Or.inl rfl
  · intro v is hread a d z hsub _ _ hz
    obtain ⟨w, x, hw, hreads, hpre⟩ := hread.exists_reads
    have hmem : z ∈ waiting.instrsOn (w ++ [x]) := hpre.subset (hsub.subset (by simp))
    have hruns : z.id ∈ waiting.barriersOn .intrinsics (w ++ [x]) :=
      List.mem_map_of_mem (List.mem_filter.2 ⟨hmem, decide_eq_true hz⟩)
    rw [barriersOn_waiting hw] at hruns
    split at hruns
    · next hx =>
      subst hx
      rcases hreads with hread | ⟨y, hedge, -⟩
      · exact absurd hread (by simp [eventsOf, block?, waiting, Block.events, Instr.events,
          Instr.isPhi, Op.operands, Terminator.operands])
      · simpa using edge_waiting hedge
    · cases hruns

theorem plan_of_plannable_waiting : waiting.defects = [] ∧ (waiting.instrs.map (·.id)).Nodup ∧
    waiting.Plannable .intrinsics ⟨1⟩ ∧
    {r : Route BlockId | r.Runs waiting.graph.entry waiting.graph.edges}.encard ≤
      Config.standard.maxPaths ∧ ∃ plan, waiting.plan .standard = .ok plan := by
  have hf : waiting.defects = [] := by cbv
  have hn : (waiting.instrs.map (·.id)).Nodup := by decide
  have hpaths : {r : Route BlockId | r.Runs waiting.graph.entry waiting.graph.edges}.encard ≤
      Config.standard.maxPaths := by
    have hlen : waiting.graph.routes.length = 2 := by cbv
    rw [(Graph.listed_graph _).encard_runs, hlen]
    decide
  exact ⟨hf, hn, plannable_waiting, hpaths,
    plan_of_plannable waiting .standard ⟨1⟩ hf hn plannable_waiting hpaths⟩

end Func

end BarrierLowering
