import BarrierLowering.Proofs.Extends
import BarrierLowering.Proofs.Plannable

/-!
# Lowering a kernel again

The entry of a lowered kernel holds what stood in front of the last query of the rank, and no
generated instruction is a query or a barrier. So a kernel that was lowered once has no barriers
left, if they were removed, or asks for the rank too late. Where one loop stands behind another,
threads go round between two barriers, and the analysis turns the kernel down. It is lowered again
only if it waits once, and asked for the rank and the size before it asked for the rank for the last
time.

## Main results

* `Func.barriersOn_of_onCycle` — the barriers that have run on a cycle of a drafted kernel.
* `Func.Lowered.exists_entry`, `Func.Lowered.barriers_perm` — entry and barriers of a lowered
  kernel.
* `Func.Lowered.draft_ne_ok` — loops that stand behind one another leave no draft.
* `Func.lowerKernel_again` — what becomes of a lowered kernel that is lowered again.
-/

namespace BarrierLowering

/-! ### Entries without group queries -/

namespace Block

variable {rule : NameRule} {kind : CallKind} {blk : Block}

theorem lastQuery?_eq_none (h : ∀ i ∈ blk.instrs, ¬ i.Asks rule kind) :
    blk.lastQuery? rule kind = none := by
  rw [lastQuery?, List.getLast?_eq_none_iff, List.filterMap_eq_nil_iff]
  rintro ⟨i, pos⟩ hi
  have hnot := h i (List.fst_mem_of_mem_zipIdx hi)
  cases hres : i.result with
  | none => simp only [hres]
  | some v =>
    simp only [hres]
    exact if_neg fun hkind => hnot ⟨hkind, by rw [hres]; rfl⟩

theorem findQueries_eq_noRankQuery (h : ∀ i ∈ blk.instrs, ¬ i.Asks rule .threadRank) :
    blk.findQueries rule = .error .noRankQuery := by
  rw [findQueries, lastQuery?_eq_none h]

theorem findQueries_eq_noSizeQuery (hrank : ∃ i ∈ blk.instrs, i.Asks rule .threadRank)
    (hsize : ∀ i ∈ blk.instrs, ¬ i.Asks rule .groupSize) :
    blk.findQueries rule = .error .noSizeQuery := by
  obtain ⟨_, _, _, _, -, -, hlast⟩ := exists_lastQuery? hrank
  rw [findQueries, hlast, lastQuery?_eq_none hsize]

/-- Where the group queries are found, the rank is asked for. -/
theorem exists_asks_of_findQueries {queries : Queries} (h : blk.findQueries rule = .ok queries) :
    ∃ i ∈ blk.instrs, i.Asks rule .threadRank := by
  by_contra hnone
  rw [findQueries_eq_noRankQuery fun i hi hasks => hnone ⟨i, hi, hasks⟩] at h
  cases h

/-- One of the queries of the rank is the last one, and the others stand in front of it. -/
theorem length_filter_asks (h : ∃ i ∈ blk.instrs, i.Asks rule .threadRank) :
    (blk.instrs.filter fun i => i.Asks rule .threadRank).length =
      ((blk.ahead rule).filter fun i => i.Asks rule .threadRank).length + 1 := by
  obtain ⟨pre, i, post, hsplit, hasks, hpost⟩ := exists_last h
  obtain ⟨v, hv⟩ := Option.isSome_iff_exists.1 hasks.2
  have hahead := ahead_eq (lastQuery?_of_split hsplit hasks.1 hv hpost) hsplit rfl
  have hnone : post.filter (fun j => j.Asks rule .threadRank) = [] :=
    List.filter_eq_nil_iff.2 fun j hj => by simpa using hpost j hj
  rw [hahead, hsplit, List.filter_append, List.filter_cons_of_pos (by simpa using hasks), hnone,
    List.length_append, List.length_singleton]

end Block

namespace Func

variable {f g : Func} {rule : NameRule} {config : Config} {plan : Plan} {front first : BlockId}
  {ws : List Wrap} {next : Counters} {entry : Block} {reason : Rejection}

/-- A kernel without barriers has no plan. -/
theorem plan_eq_noBarriers (hids : f.blockIds.Nodup) (hentry : f.entry? = some entry)
    (h : f.barriers config.nameRule = []) : f.plan config = .error .noBarriers := by
  rw [plan, draft, hentry, (barrierMap_eq_nil_iff hids).2 h]
  rfl

/-- A kernel with barriers but without group queries has no plan. -/
theorem plan_eq_of_findQueries (hids : f.blockIds.Nodup) (hentry : f.entry? = some entry)
    (h : f.barriers config.nameRule ≠ [])
    (hqueries : entry.findQueries config.nameRule = .error reason) :
    f.plan config = .error reason := by
  have hmap : (f.barrierMap config.nameRule).isEmpty = false :=
    List.isEmpty_eq_false_iff.2 fun hnil => h ((barrierMap_eq_nil_iff hids).1 hnil)
  rw [plan, draft, hentry]
  dsimp only
  rw [hmap, hqueries]
  rfl

/-- On a cycle of a drafted kernel, either no barrier has run or all of them have. -/
theorem barriersOn_of_onCycle {w : List BlockId} {b : BlockId} (hids : f.blockIds.Nodup)
    (h : f.draft config = .ok plan) (hw : f.graph.IsWalk (w ++ [b])) (hcycle : f.graph.OnCycle b) :
    f.barriersOn config.nameRule (w ++ [b]) = [] ∨
      f.barriersOn config.nameRule (w ++ [b]) = plan.barriers := by
  obtain ⟨entry, s, hentry, -, -, hsurvey, -⟩ := draft_eq_ok h
  have he : f.entryId? = some entry.id := by rw [entryId?, hentry, Option.map_some]
  obtain ⟨horder, ps, hcovers, hcourses⟩ := survey_eq_ok he hsurvey
  have hholds : ∀ x, (f.barrierMap config.nameRule).holds x = true → ¬ f.graph.OnCycle x := by
    intro x hx
    rw [holds_barrierMap hids, decide_eq_true_iff] at hx
    exact not_onCycle_of_draft hids h hx
  -- without its detours the walk goes on along the cycle to the end of a path of the survey
  obtain ⟨w', hw', hnd, hsame⟩ := hw.exists_nodup hholds
  obtain ⟨c, hc⟩ := Graph.exists_isChain_of_transGen hcycle
  obtain ⟨r, rest, hr, hwalk, hrest⟩ :=
    Graph.exists_route_of_isChain hw' hnd (List.mem_append_right _ (List.mem_singleton.2 rfl)) hc
  have hcourse : r.course ∈ ps.map Path.course := by
    rw [hcourses, ← Graph.map_course_routes he]
    exact List.mem_map_of_mem ((f.graph.mem_routes_iff r).2 hr)
  obtain ⟨q, hq, hqr⟩ := List.mem_map.1 hcourse
  have hnodes : q.nodes = w' ++ [b] ++ rest := (congrArg Prod.fst hqr).trans hwalk
  -- on the cycle it meets no barrier
  have hnone : rest.filter (f.barrierMap config.nameRule).holds = [] :=
    List.filter_eq_nil_iff.2 fun x hx hbarrier =>
      hholds x hbarrier (Graph.onCycle_of_revisit hc (List.mem_cons_of_mem _ (hrest hx)))
  have hvisited : q.nodes.filter (f.barrierMap config.nameRule).holds =
      (w ++ [b]).filter (f.barrierMap config.nameRule).holds := by
    rw [hnodes, List.filter_append, hnone, List.append_nil, hsame]
  rw [barriersOn_eq_visited hids, ← hvisited]
  by_cases hnil : q.nodes.filter (f.barrierMap config.nameRule).holds = []
  · exact .inl (by rw [hnil, List.flatMap_nil])
  · exact .inr (Option.some.inj ((hcovers.agree q hq hnil).2.symm.trans horder))

end Func

/-! ### What is left of a lowered kernel -/

/-- The code of a loop neither asks for anything nor waits. -/
theorem Region.kind_code (r : Region) (guard : TurnGuard) (plan : Plan) (c : Counters)
    (rule : NameRule) : ∀ i ∈ (r.code guard plan c).instrs, i.kind rule = .other := by
  unfold LoopCode.instrs code opening Plan.convert TurnGuard.test
  cases guard <;> dsimp only <;> split <;> simp [Counters.emit, Instr.kind, Instr.callee]

namespace Func

variable {f g : Func} {rule : NameRule} {config : Config} {plan : Plan} {front first : BlockId}
  {ws : List Wrap} {w w' : Wrap} {next : Counters}

/-- The loops wait nowhere. -/
theorem Lowered.barriers_perm (h : f.Lowered g config plan front first ws next) :
    ((g.looped ws next).barriers rule).Perm (f.barriers rule) := by
  have hcode : (ws.flatMap (·.code.instrs)).filter (fun i => i.kind rule = .barrier) = [] := by
    refine List.filter_eq_nil_iff.2 fun i hi => ?_
    obtain ⟨w, hw, hi⟩ := List.mem_flatMap.1 hi
    obtain ⟨c, hc⟩ := h.loopable.code w hw
    rw [w.region.kind_code config.turnGuard plan c rule i (hc ▸ hi)]
    decide
  have hperm := (h.loopable.instrs_perm.filter fun i => i.kind rule = .barrier).map (·.id)
  rwa [List.filter_append, hcode, List.append_nil, h.cuts.same.1] at hperm

/-- The entry of a lowered kernel holds what stood in front of the last query of the rank. -/
theorem Lowered.exists_entry (h : f.Lowered g config plan front first ws next) :
    ∃ blk entry, Func.entry? (g.looped ws next) = some blk ∧ f.entry? = some entry ∧
      blk.instrs = entry.ahead config.nameRule := by
  have hloop := h.loopable
  obtain ⟨entry, hentry, hahead⟩ := h.ahead
  obtain ⟨blk, hblk⟩ := mem_blockIds_iff.1 (entryId?_mem h.sequenced.entry)
  have hid : (g.looped ws next).entryId? = some front := by
    rw [Loopable.entryId?_eq h.sequenced.passable, h.sequenced.entry]
  obtain ⟨new, hnew, hnewid⟩ := Option.map_eq_some_iff.1 hid
  have hnewblk : (g.looped ws next).block? front = some new :=
    (block?_eq_some_iff hloop.blockIds_nodup).2 ⟨List.mem_of_mem_head? hnew, hnewid⟩
  obtain rfl := Option.some.inj ((hloop.block?_old hblk).symm.trans hnewblk)
  refine ⟨_, entry, hnew, hentry, ?_⟩
  -- no region begins behind the entry
  have hnone : (ws.filter fun w => w.region.pred = blk.id) = [] := by
    refine List.filter_eq_nil_iff.2 fun w hw hpred => h.sequenced.front_not_mem ?_
    rw [← (block?_mem hblk).2, ← of_decide_eq_true hpred]
    exact h.sequenced.pred_mem (List.mem_map_of_mem hw)
  rw [Block.inner, hnone, List.flatMap_nil, List.append_nil, ← hahead, instrsOf_of_block? hblk]

/-- Without its barriers a lowered kernel has no plan. -/
theorem Lowered.plan_without (h : f.Lowered g config plan front first ws next)
    (hord : f.InOrder config.nameRule plan.barriers) :
    ((g.looped ws next).without plan.barriers).plan config = .error .noBarriers := by
  obtain ⟨blk, -, hblk, -⟩ := h.exists_entry
  have hentry : Func.entry? ((g.looped ws next).without plan.barriers) = some { blk with
      instrs := blk.instrs.filter fun i => i.id ∉ plan.barriers } := by
    rw [Func.without, entry?, List.head?_map, ← entry?, hblk]
    rfl
  refine plan_eq_noBarriers (by rw [blockIds_without]; exact h.loopable.blockIds_nodup) hentry ?_
  rw [barriers, instrs_without, List.map_eq_nil_iff, List.filter_eq_nil_iff]
  intro i hi hkind
  obtain ⟨hi, hstays⟩ := List.mem_filter.1 hi
  have hmem : i.id ∈ (g.looped ws next).barriers config.nameRule :=
    List.mem_map_of_mem (List.mem_filter.2 ⟨hi, hkind⟩)
  exact of_decide_eq_true hstays (hord.perm.mem_iff.2 (h.barriers_perm.mem_iff.1 hmem))

/-- With its barriers a lowered kernel has no plan if its entry has no group queries left. -/
theorem Lowered.plan_eq_of_ahead (h : f.Lowered g config plan front first ws next)
    {entry : Block} {reason : Rejection} (hentry : f.entry? = some entry)
    (hne : f.barriers config.nameRule ≠ [])
    (hqueries : ∀ blk : Block, blk.instrs = entry.ahead config.nameRule →
      blk.findQueries config.nameRule = .error reason) :
    (g.looped ws next).plan config = .error reason := by
  obtain ⟨blk, entry', hblk, hentry', hinstrs⟩ := h.exists_entry
  obtain rfl := Option.some.inj (hentry.symm.trans hentry')
  refine plan_eq_of_findQueries h.loopable.blockIds_nodup hblk (fun hnil => hne ?_)
    (hqueries blk hinstrs)
  exact (hnil ▸ h.barriers_perm).nil_eq.symm

/-! ### Loops behind one another -/

/-- The header of a loop is on a cycle. -/
theorem Loopable.onCycle_header {guard : TurnGuard} (h : f.Loopable guard plan ws next)
    (hw : w ∈ ws) : (f.looped ws next).graph.OnCycle w.code.header :=
  .tail (.single ((h.edge_header hw).2 (.inr rfl))) ((h.edge_tail hw).2 (.inr rfl))

/-- Control comes to the block in front of a loop. -/
theorem Lowered.exists_walk_pred (h : f.Lowered g config plan front first ws next) (hw : w ∈ ws) :
    ∃ is, (g.looped ws next).graph.IsWalk (is ++ [w.region.pred]) := by
  obtain ⟨is, his⟩ := h.sequenced.exists_walk_pred (List.mem_map_of_mem hw)
  obtain ⟨is', his', -⟩ := evades_nil_iff.1 (h.loopable.evades_looped
    (Loopable.entryId?_eq h.sequenced.passable) (h.loopable.pred_mem hw) (evades_self his).mono)
  exact ⟨is', his'⟩

/-- The barrier behind a loop stays where it was. -/
theorem Lowered.key_mem (h : f.Lowered g config plan front first ws next)
    (hord : f.InOrder config.nameRule plan.barriers) (hw : w ∈ ws) :
    w.region.key ∈ (g.looped ws next).barriersOf config.nameRule w.region.succ := by
  have hperm : plan.barriers.Perm (g.barriers config.nameRule) := h.cuts.barriers_eq ▸ hord.perm
  obtain ⟨i, hi, hkey, hkind⟩ := h.sequenced.exists_barrier_succ h.numbered hperm
    (List.mem_map_of_mem hw)
  have hmem : i ∈ (g.looped ws next).instrsOf w.region.succ :=
    h.loopable.instrsOf_subset (h.loopable.succ_mem hw) (hi ▸ List.mem_singleton.2 rfl)
  exact hkey ▸ List.mem_map_of_mem (List.mem_filter.2 ⟨hmem, decide_eq_true hkind⟩)

/-- Loops that stand behind one another leave no draft: a thread goes round in the second one, where
it has passed the barrier in front of it and not the one behind. -/
theorem Lowered.draft_ne_ok (h : f.Lowered g config plan front first ws next)
    (hord : f.InOrder config.nameRule plan.barriers) (hw : w ∈ ws) (hw' : w' ∈ ws)
    (hnext : w'.region.pred = w.region.succ) (plan' : Plan) :
    (g.looped ws next).draft config ≠ .ok plan' := by
  intro hdraft
  have hids := h.loopable.blockIds_nodup
  obtain ⟨is, his⟩ := h.exists_walk_pred hw'
  have hround := his.snoc ((h.loopable.edge_into_header hw').2 (.inl rfl))
  rcases barriersOn_of_onCycle hids hdraft hround (h.loopable.onCycle_header hw') with hnil | hall
  · -- the barrier in front of the loop has run
    have hkey : w.region.key ∈ (g.looped ws next).barriersOn config.nameRule
        (is ++ [w'.region.pred] ++ [w'.code.header]) :=
      mem_barriersOn_iff.2 ⟨w'.region.pred, by simp, hnext ▸ h.key_mem hord hw⟩
    rw [hnil] at hkey
    cases hkey
  · -- the barrier behind the loop has not
    have hkey : w'.region.key ∈ (g.looped ws next).barriersOn config.nameRule
        ([w'.code.tail] ++ [w'.region.succ]) :=
      mem_barriersOn_iff.2 ⟨w'.region.succ, by simp, h.key_mem hord hw'⟩
    have hon := (hround.snoc ((h.loopable.edge_header hw').2 (.inr rfl))).snoc
      ((h.loopable.edge_tail hw').2 (.inl rfl))
    have hprefix := (inOrder_of_draft hids hdraft).onWalk _ hon
    rw [List.append_assoc _ [w'.code.tail], barriersOn_append, hall] at hprefix
    have hlen := hprefix.length_le
    rw [List.length_append] at hlen
    have hpos := List.length_pos_of_mem hkey
    omega

/-- A lowered kernel that waits more than once has no plan. -/
theorem Lowered.exists_plan_eq_error (h : f.Lowered g config plan front first ws next)
    (hord : f.InOrder config.nameRule plan.barriers)
    (hmany : 2 ≤ (f.barriers config.nameRule).length) :
    ∃ reason, (g.looped ws next).plan config = .error reason := by
  have hcount : 2 ≤ ws.length := by
    rwa [← hord.perm.length_eq, ← h.sequenced.keys, List.length_map, List.length_map] at hmany
  obtain ⟨w, w', rest, rfl⟩ : ∃ w w' rest, ws = w :: w' :: rest := by
    rcases ws with _ | ⟨w, _ | ⟨w', rest⟩⟩
    · simp at hcount
    · simp at hcount
    · exact ⟨w, w', rest, rfl⟩
  have hchain := h.sequenced.linked.isChain
  rw [List.map_cons, List.map_cons, List.isChain_cons_cons] at hchain
  have hnot := h.draft_ne_ok hord List.mem_cons_self
    (List.mem_cons_of_mem w List.mem_cons_self) hchain.1
  cases hplan : (g.looped (w :: w' :: rest) next).plan config with
  | error reason => exact ⟨reason, rfl⟩
  | ok plan' => exact absurd (plan_eq_ok_iff.1 hplan).1 (hnot plan')

/-- **A lowered kernel is left as it is when it is lowered again**, unless it waits only once, the
barrier stays, and it asked for the rank and the size before it asked for the rank for the last
time. If its barriers were removed, it has none; else it does not ask for the rank, or for the size,
before the loops, or threads go round between two barriers. -/
theorem lowerKernel_again (f g : Func) (config : Config) (loops : List TurnLoop)
    (hf : f.defects = []) (hn : f.Numbered)
    (h : (lowerKernel config).apply f = (.ok (.transformed loops), g)) :
    (config.eraseBarriers = true →
      (lowerKernel config).apply g = (.ok (.skipped .noBarriers), g)) ∧
    (config.eraseBarriers = false →
      (2 ≤ (f.barriers config.nameRule).length →
        ∃ reason, (lowerKernel config).apply g = (.ok (.skipped reason), g)) ∧
      ∀ entry, f.entry? = some entry →
        ((entry.instrs.filter fun i => i.Asks config.nameRule .threadRank).length = 1 →
          (lowerKernel config).apply g = (.ok (.skipped .noRankQuery), g)) ∧
        ((entry.instrs.filter fun i => i.Asks config.nameRule .threadRank).length ≠ 1 →
          (∀ i ∈ entry.ahead config.nameRule, ¬ i.Asks config.nameRule .groupSize) →
          (lowerKernel config).apply g = (.ok (.skipped .noSizeQuery), g))) := by
  have hs := (defects_eq_nil_iff.1 hf).toShaped
  obtain ⟨plan, hplan, hout⟩ := exists_plan_of_transformed h
  have hdraft := (plan_eq_ok_iff.1 hplan).1
  have hord := inOrder_of_draft hs.blocks_nodup hdraft
  obtain ⟨g', front, first, ws, next, hlowered, hcarry⟩ := Plan.exists_carriedOut hs hn hdraft
  cases hcarry.symm.trans hout
  constructor
  · intro herase
    rw [Config.erased, if_pos herase]
    exact apply_lowerKernel_of_error (hlowered.plan_without hord)
  · intro hkeep
    rw [Config.erased, hkeep, if_neg Bool.false_ne_true, without_nil]
    refine ⟨fun hmany => ?_, fun entry hentry => ?_⟩
    · obtain ⟨reason, herror⟩ := hlowered.exists_plan_eq_error hord hmany
      exact ⟨reason, apply_lowerKernel_of_error herror⟩
    obtain ⟨entry', -, hentry', hmap, hqueries, -⟩ := draft_eq_ok hdraft
    obtain rfl := Option.some.inj (hentry.symm.trans hentry')
    rw [Ne, barrierMap_eq_nil_iff hs.blocks_nodup] at hmap
    rw [Block.length_filter_asks (Block.exists_asks_of_findQueries hqueries)]
    constructor
    · intro hone
      have hnone : ∀ i ∈ entry.ahead config.nameRule, ¬ i.Asks config.nameRule .threadRank := by
        simpa [List.filter_eq_nil_iff] using List.eq_nil_of_length_eq_zero (Nat.succ.inj hone)
      refine apply_lowerKernel_of_error (hlowered.plan_eq_of_ahead hentry hmap fun blk hblk => ?_)
      exact Block.findQueries_eq_noRankQuery (hblk ▸ hnone)
    · intro hmore hsize
      have hother : ∃ i ∈ entry.ahead config.nameRule, i.Asks config.nameRule .threadRank := by
        by_contra hnone
        refine hmore (congrArg Nat.succ (List.length_eq_zero_iff.2 ?_))
        simpa [List.filter_eq_nil_iff] using hnone
      refine apply_lowerKernel_of_error (hlowered.plan_eq_of_ahead hentry hmap fun blk hblk => ?_)
      exact Block.findQueries_eq_noSizeQuery (hblk ▸ hother) (hblk ▸ hsize)

/-- A kernel whose threads ask for the rank once and wait twice is lowered only once. -/
theorem lowerKernel_again_waitingTwice : waitingTwice.defects = [] ∧ waitingTwice.Numbered ∧
    ∃ loops g, (lowerKernel .standard).apply waitingTwice = (.ok (.transformed loops), g) ∧
      (lowerKernel .standard).apply g = (.ok (.skipped .noRankQuery), g) := by
  obtain ⟨loops, g, happly⟩ :=
    exists_transformed defects_waitingTwice numbered_waitingTwice (plan_waitingTwice false)
  have hagain := lowerKernel_again _ _ _ _ defects_waitingTwice numbered_waitingTwice happly
  exact ⟨defects_waitingTwice, numbered_waitingTwice, loops, g, happly,
    ((hagain.2 rfl).2 _ rfl).1 (by decide)⟩

/-- A kernel that asks for the rank and the size twice. -/
def askingTwice : Func where
  name := "askingTwice"
  convention := .kernel
  returnTy := .void
  params := []
  blocks :=
    [⟨⟨0⟩, "entry",
      [⟨⟨0⟩, some ⟨0⟩, .call "__hip_cg_thread_rank" [], .i32⟩,
        ⟨⟨1⟩, some ⟨1⟩, .call "__hip_cg_group_size" [], .i32⟩,
        ⟨⟨2⟩, some ⟨2⟩, .call "__hip_cg_thread_rank" [], .i32⟩,
        ⟨⟨3⟩, some ⟨3⟩, .call "__hip_cg_group_size" [], .i32⟩,
        ⟨⟨4⟩, none, .call "__hip_cg_sync" [], .void⟩],
      .ret none⟩]
  next := ⟨1, 4, 5⟩

/-- The first two queries are left in the entry, and the kernel is lowered again. -/
theorem lowerKernel_askingTwice : askingTwice.defects = [] ∧ askingTwice.Numbered ∧
    ∃ loops g loops' g', (lowerKernel .standard).apply askingTwice = (.ok (.transformed loops), g) ∧
      (lowerKernel .standard).apply g = (.ok (.transformed loops'), g') ∧ g' ≠ g := by
  have hfirst : ((lowerKernel .standard).apply askingTwice).1 =
      .ok (.transformed [⟨⟨4⟩, ⟨2⟩, ⟨5⟩, ⟨3⟩, ⟨6⟩, ⟨4⟩, ⟨6⟩, ⟨5⟩⟩]) := by cbv
  have hsecond : ((lowerKernel .standard).apply ((lowerKernel .standard).apply askingTwice).2).1 =
      .ok (.transformed [⟨⟨4⟩, ⟨8⟩, ⟨11⟩, ⟨1⟩, ⟨12⟩, ⟨10⟩, ⟨14⟩, ⟨13⟩⟩]) := by cbv
  refine ⟨by cbv, ⟨by decide, by decide, by decide, by decide, by decide⟩, _, _, _, _,
    Prod.ext hfirst rfl, Prod.ext hsecond rfl, fun heq => ?_⟩
  have hnext : ((lowerKernel .standard).apply
      ((lowerKernel .standard).apply askingTwice).2).2.next.block = 13 := by cbv
  have hnext' : ((lowerKernel .standard).apply askingTwice).2.next.block = 7 := by cbv
  exact absurd (hnext.symm.trans ((congrArg (·.next.block) heq).trans hnext')) (by decide)

end Func

end BarrierLowering
