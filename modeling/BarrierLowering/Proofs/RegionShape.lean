import BarrierLowering.Proofs.LoopShape

/-!
# The shape of the regions

A planned kernel is divided by splits alone, so that it stays well formed, and each barrier ends up
in a block of its own. That the regions between those blocks have one way in and one way out can be
read off the edges. That control cannot come to the end of a region but through its start is not
a matter of edges: it holds because the barriers run in one order on all walks, so that the block in
front of the region is on every walk to its end.

## Main definitions

* `Func.HasRegion` — a region stands in front of a barrier.

## Main results

* `Func.Sequenced.dominates_exit` — the start of a region dominates its end.
* `Func.Sequenced.exists_walk_exit` — control can come through a region without another barrier.
* `Func.buildRegions_shape` — a planned kernel is divided into such regions.
-/

namespace BarrierLowering.Func

/-- A region stands in front of a barrier, which has a block of its own. The region has one way in
and one way out, and control can come through it past no other barrier. -/
structure HasRegion (f : Func) (rule : NameRule) (r : Region) : Prop where
  leaves_pred : f.successors r.pred = [r.start]
  enters_start : f.predecessors r.start = [r.pred]
  enters_succ : f.predecessors r.succ = [r.exit]
  barrier : ∃ i, f.instrsOf r.succ = [i] ∧ i.id = r.key ∧ i.kind rule = .barrier
  dominates : f.dominators.dominates r.start r.exit = true
  passes : ∃ w₁ w₂, f.graph.IsWalk (w₁ ++ r.pred :: (w₂ ++ [r.exit])) ∧
    f.barriersOn rule (w₂ ++ [r.exit]) = []

variable {f : Func} {rule : NameRule} {plan : Plan} {front first : BlockId} {regions : List Region}
  {r : Region}

namespace Sequenced

/-- Some walk comes through the region to its end, past no barrier and not through the group queries
again. -/
theorem exists_walk_exit (h : f.Sequenced rule plan front first regions) (hr : r ∈ regions) :
    ∃ w₁ w₂, f.graph.IsWalk (w₁ ++ r.pred :: (w₂ ++ [r.exit])) ∧
      ∀ b ∈ w₂ ++ [r.exit], b ∉ first :: regions.map (·.succ) := by
  obtain ⟨w, hw⟩ := h.exists_walk_pred hr
  obtain ⟨is, hchain, his⟩ := h.exists_path hr
  have hcloses := (h.isRegion hr).closes
  rcases List.eq_nil_or_concat is with rfl | ⟨is, b, rfl⟩
  · -- the region ends in a block that is none of the marks
    have hexit := (hcloses r.pred).1 (List.isChain_pair.1 hchain)
    exact absurd (hexit ▸ h.pred_mem hr) (h.exits r hr)
  · rw [List.concat_eq_append] at hchain his
    rw [List.append_assoc, List.singleton_append, ← List.cons_append, List.isChain_split] at hchain
    obtain rfl := (hcloses b).1 (List.isChain_pair.1 hchain.2)
    exact ⟨w, is, hw.extend hchain.1, his⟩

/-- Control comes to the end of a region through its start. -/
theorem dominates_exit (h : f.Sequenced rule plan front first regions) (hr : r ∈ regions) :
    f.graph.Dominates r.start r.exit := by
  intro w hw
  obtain ⟨w₁, w₂, rfl⟩ := List.append_of_mem (h.pred_mem_of_exit hr hw)
  -- what comes behind the block in front of the region is its start
  obtain ⟨x, rest, hrest⟩ := List.exists_cons_of_ne_nil (List.append_ne_nil_of_right_ne_nil w₂
    (List.cons_ne_nil r.exit []))
  rw [List.append_assoc, List.cons_append, hrest] at hw ⊢
  obtain rfl := ((h.isRegion hr).leaves x).1 hw.edge
  simp

/-- Each region of a divided kernel stands in front of its barrier. -/
theorem hasRegion (h : f.Sequenced rule plan front first regions) (hids : f.blockIds.Nodup)
    (hn : f.Numbered) (hperm : plan.barriers.Perm (f.barriers rule)) (hr : r ∈ regions) :
    f.HasRegion rule r where
  leaves_pred := successors_eq_of_edge (h.isRegion hr).leaves
  enters_start := predecessors_eq_singleton hids (h.isRegion hr).enters
  enters_succ := predecessors_eq_singleton hids (h.isRegion hr).closes
  barrier := h.exists_barrier_succ hn hperm hr
  dominates := Graph.dominates_dominators_iff.2 fun _ => h.dominates_exit hr
  passes := by
    obtain ⟨w₁, w₂, hw, hquiet⟩ := h.exists_walk_exit hr
    refine ⟨w₁, w₂, hw, ?_⟩
    rw [barriersOn_eq_flatMap, List.flatMap_eq_nil_iff]
    exact fun b hb => h.barriersOf_of_not_mem hn hperm fun hin =>
      hquiet b hb (List.mem_cons_of_mem _ hin)

end Sequenced

/-- **A planned kernel is divided into its regions.** It has no defects afterwards, and the same
instructions. There is one region for each barrier, in the order of the plan. The first begins
behind a block with the group queries, which is what the old entry held from the last query of the
rank up to the anchor, and each other one begins at the barrier before it. -/
theorem buildRegions_shape (f : Func) (config : Config) (plan : Plan) (hf : f.defects = [])
    (hn : f.Numbered) (hplan : f.plan config = .ok plan) :
    ∃ regions g, plan.buildRegions.apply f = (.ok regions, g) ∧ g.defects = [] ∧
      g.instrs = f.instrs ∧ regions.map (·.key) = plan.barriers ∧
      (∃ entry ahead queries behind first rest, f.entry? = some entry ∧
        entry.instrs = ahead ++ queries ++ behind ∧
        queries.head?.map (·.id) = some plan.rankQuery ∧
        queries.getLast?.map (·.id) = some plan.anchor ∧
        regions = first :: rest ∧ g.instrsOf first.pred = queries) ∧
      regions.IsChain (fun r r' => r'.pred = r.succ) ∧
      ∀ r ∈ regions, g.HasRegion config.nameRule r := by
  have hwf := defects_eq_nil_iff.1 hf
  have hdraft := (plan_eq_ok_iff.1 hplan).1
  obtain ⟨g, front, first, regions, happly, hcuts, hseq, hperm, entry, hentry, hqueries⟩ :=
    Plan.exists_sequenced hwf.toShaped hn hdraft
  have hg := hcuts.wellFormed hwf
  have hne : regions ≠ [] := by
    rintro rfl
    -- a kernel without barriers has no plan
    obtain ⟨-, -, -, hmap, -⟩ := draft_eq_ok hdraft
    have hnone := (inOrder_of_draft hwf.blocks_nodup hdraft).perm
    rw [← hseq.keys] at hnone
    exact hmap ((barrierMap_eq_nil_iff hwf.blocks_nodup).2 (List.nil_perm.1 hnone))
  obtain ⟨r, rest, rfl⟩ := List.exists_cons_of_ne_nil hne
  obtain ⟨behind, hbehind⟩ := hqueries.queries
  have hpred : r.pred = first := hseq.linked.head_pred r rfl
  refine ⟨r :: rest, g, happly, defects_eq_nil_iff.2 hg, hcuts.same.1, hseq.keys,
    ⟨entry, _, _, behind, r, rest, hentry, hbehind.symm, hqueries.rankQuery, hqueries.anchor, rfl,
      by rw [hpred]⟩, hseq.linked.isChain, fun r' hr' => ?_⟩
  exact hseq.hasRegion hg.blocks_nodup (hcuts.numbered hn) hperm hr'

/-- Two barriers in one block with the group queries. -/
theorem buildRegions_shape_waitingTwice : waitingTwice.defects = [] ∧ waitingTwice.Numbered ∧
    ∃ plan, waitingTwice.plan .standard = .ok plan ∧
      ∃ r r' g, plan.buildRegions.apply waitingTwice = (.ok [r, r'], g) ∧ g.defects = [] ∧
        r.key = ⟨2⟩ ∧ r'.key = ⟨3⟩ ∧ r'.pred = r.succ ∧
        (g.instrsOf r.pred).head?.map (·.id) = some ⟨0⟩ ∧
        (g.instrsOf r.pred).getLast?.map (·.id) = some ⟨1⟩ ∧
        g.HasRegion Config.standard.nameRule r ∧ g.HasRegion Config.standard.nameRule r' := by
  obtain ⟨regions, g, happly, hg, -, hkeys, ⟨_, _, _, _, first, _, -, -, hrank, hanchor,
    hfirst, rfl⟩,
      hchain, hregions⟩ :=
    buildRegions_shape waitingTwice .standard _ defects_waitingTwice numbered_waitingTwice
      (plan_waitingTwice false)
  obtain ⟨r, rest, rfl, hkey, hrest⟩ := List.map_eq_cons_iff.1 hkeys
  obtain ⟨r', rest', rfl, hkey', hrest'⟩ := List.map_eq_cons_iff.1 hrest
  obtain rfl := List.map_eq_nil_iff.1 hrest'
  obtain ⟨rfl, -⟩ := List.cons.inj hfirst
  exact ⟨defects_waitingTwice, numbered_waitingTwice, _, plan_waitingTwice false, r, r', g, happly,
    hg, hkey, hkey', (List.isChain_cons_cons.1 hchain).1, hrank, hanchor,
    hregions r List.mem_cons_self, hregions r' (List.mem_cons_of_mem _ List.mem_cons_self)⟩

end BarrierLowering.Func
