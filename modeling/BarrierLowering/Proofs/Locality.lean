import BarrierLowering.Proofs.Lowered
import BarrierLowering.Proofs.Stages

/-!
# Kernels that are rejected because of a value

The analysis rejects a kernel when a value is read behind the barrier that closes the stage of its
definition. It is right to do so: a loop around that stage would let control pass the definition
by, and the lowered kernel would have a defect.

## Main results

* `Func.loses_of_crossing?` — a value for which a kernel is rejected is read when it is lost.
* `Func.exists_notDominated` — a value that leaks is a defect.
* `Func.notDominated_of_rejected` — such a kernel can be lowered, and has that defect then.
-/

namespace BarrierLowering

namespace Func

variable {f : Func} {config : Config} {plan : Plan} {o : BarrierOrder} {b c x : BlockId}
  {v : ValueId}

/-! ### Lost values -/

/-- In a drafted kernel the entry runs the anchor before any barrier. -/
theorem opens_of_draft (hids : f.blockIds.Nodup) (hinstrs : (f.instrs.map (·.id)).Nodup)
    (h : f.draft config = .ok plan) : f.Opens ⟨plan.anchor, plan.barriers⟩ := by
  have hord := inOrder_of_draft hids h
  obtain ⟨entry, -, hentry, -, hqueries, -⟩ := draft_eq_ok h
  obtain ⟨pre, ys, y, post, -, hsplit, -, -, hy, -, -, -, hquiet, -⟩ :=
    Block.findQueries_eq_ok hqueries
  have hblk : entry ∈ f.blocks := List.mem_of_mem_head? hentry
  refine ⟨entry.id, pre ++ ys, y, post, by rw [entryId?, hentry, Option.map_some], ?_, hy, ?_⟩
  · rw [instrsOf_of_block? (block?_id hids hblk), hsplit, List.append_assoc]
  · intro i hi
    rw [List.append_assoc] at hi
    refine hord.id_not_mem hinstrs (List.mem_flatMap.2 ⟨entry, hblk, ?_⟩) (hquiet i hi)
    rw [hsplit, ← List.singleton_append, ← List.append_assoc ys, ← List.append_assoc pre]
    exact List.mem_append_left _ hi

/-- A value for which a kernel is rejected is read on a walk when it is lost. -/
theorem loses_of_crossing? (hf : f.WellFormed) (hids : (f.instrs.map (·.id)).Nodup)
    (hopens : f.Opens o) {barrier : InstrId} (h : f.crossing? o = some (v, barrier)) :
    f.Loses o v := by
  obtain ⟨as, d, bs, z, cs, hread, hd, -, hz, hquiet⟩ :=
    exists_readAfter_of_crossing? hf hids hopens h
  refine ⟨_, hread, ?_⟩
  rw [← List.cons_append, BarrierOrder.ledger_append, List.foldl_append,
    BarrierOrder.foldl_pass_of_not_mark hquiet, List.foldl_cons, BarrierOrder.pass, if_pos hz]
  refine BarrierOrder.lost_foldl (List.mem_append_right _ (List.mem_append_right _ ?_))
  exact List.mem_filterMap.2 ⟨d, List.mem_cons_self, hd⟩

/-! ### Leaks are defects -/

/-- At the end of a way around its definition, a value is not defined. -/
theorem definedBefore_of_evades (hs : f.Shaped) (hne : c ≠ x) {i : Instr} (hi : i ∈ f.instrsOf c)
    (hv : i.result = some v) (hevades : f.Evades [] c x) (pos : Option Nat) :
    f.definedBefore f.dominators v x pos = false := by
  obtain ⟨blk, hblk, rfl, hmem⟩ := exists_block_of_mem_instrsOf hi
  cases hsite : f.defSite? v with
  | none =>
    rw [defSite?_eq_none_iff] at hsite
    exact absurd (mem_results_iff.2 ⟨blk, hblk, i, hmem, hv⟩) hsite
  | some site =>
    obtain ⟨home, index⟩ := site
    obtain ⟨dblk, hdblk, rfl, is, d, js, hd, -, hdv⟩ := defSite?_eq_some hsite
    obtain ⟨is', js', hi'⟩ := List.append_of_mem hmem
    obtain ⟨rfl, -⟩ := definition_unique hs.results_nodup hblk hdblk hi' hd hv hdv
    rw [definedBefore, hsite]
    dsimp only
    rw [if_neg hne, ← Bool.not_eq_true, dominators,
      Graph.dominates_dominators (hevades.mem_reachable hs)]
    exact fun hdom => hne (hevades.eq_of_dominates hdom)

/-- A value that is read where it is not defined is a defect. -/
theorem notDominated_mem_defects (hs : f.Shaped) (hx : x ∈ f.graph.reachable)
    (hread : f.Reads x v) (h : ∀ pos, f.definedBefore f.dominators v x pos = false) :
    .notDominated x v ∈ f.defects := by
  suffices hmem : .notDominated x v ∈ f.dominanceDefects by
    rw [defects, if_neg (by simpa using hs.nonempty)]
    simp [hmem]
  have hrow : ∀ blk ∈ f.blocks, blk.id ∈ f.graph.reachable →
      blk ∈ f.blocks.filter fun blk => f.dominators.isReachable blk.id := fun blk hblk hreach =>
    List.mem_filter.2 ⟨hblk, Graph.isReachable_dominators.2 hreach⟩
  have huse : ∀ {blk : Block} {i : Instr}, i ∈ blk.instrs →
      (∀ pos, .notDominated x v ∈ f.earlyUses f.dominators blk.id i pos) →
      .notDominated x v ∈ blk.instrs.zipIdx.flatMap fun e =>
        f.earlyUses f.dominators blk.id e.1 e.2 := by
    intro blk i hi hearly
    obtain ⟨is, js, hsplit⟩ := List.append_of_mem hi
    exact List.mem_flatMap.2
      ⟨(i, is.length), mem_zipIdx_iff_split.2 ⟨is, js, hsplit, rfl⟩, hearly _⟩
  rcases hread with hread | ⟨y, hxy, hread⟩
  · obtain ⟨blk, hblk⟩ := mem_blockIds_iff.1 (mem_reachable_iff.1 hx).2
    obtain ⟨hin, rfl⟩ := block?_mem hblk
    refine List.mem_flatMap.2 ⟨blk, hrow blk hin hx, ?_⟩
    rcases (read_mem_eventsOf hblk).1 hread with ⟨i, hi, hphi, hv⟩ | hv
    · refine List.mem_append_left _ (huse hi fun pos =>
        mem_earlyUses_iff.2 (Or.inl ⟨hphi, v, hv, ?_⟩))
      exact ⟨h _, rfl⟩
    · refine List.mem_append_right _ (List.mem_map.2 ⟨v, List.mem_filter.2 ⟨hv, ?_⟩, rfl⟩)
      rw [h none, Bool.not_false]
  · -- the phi node is in a block that is reachable over the edge
    obtain ⟨blk, hblk⟩ := mem_blockIds_iff.1 (hs.mem_of_edge hxy)
    obtain ⟨i, hi, hin⟩ := (read_mem_edgeEvents hblk).1 hread
    obtain ⟨hmem, rfl⟩ := block?_mem hblk
    obtain ⟨⟨w, hw⟩, -⟩ := mem_reachable_iff.1 hx
    have hreach := mem_reachable_iff.2 ⟨⟨_, hw.snoc hxy⟩, hs.mem_of_edge hxy⟩
    refine List.mem_flatMap.2 ⟨blk, hrow blk hmem hreach, List.mem_append_left _ ?_⟩
    refine huse hi fun pos => ?_
    exact mem_earlyUses_iff.2 (Or.inr ⟨_, hin, h none, rfl⟩)

/-- A value that leaks is a defect. -/
theorem exists_notDominated (hs : f.Shaped) (h : f.Leaks [] v) :
    ∃ b, .notDominated b v ∈ f.defects := by
  obtain ⟨c, x, hne, ⟨i, hi, hv⟩, hread, hevades⟩ := h
  exact ⟨x, notDominated_mem_defects hs (hevades.mem_reachable hs) hread
    (definedBefore_of_evades hs hne hi hv hevades)⟩

/-- The draft of a kernel does not depend on the turns. -/
theorem draft_turnGuard (guard : TurnGuard) :
    f.draft { config with turnGuard := guard } = f.draft config := rfl

/-- **A kernel is rejected because of a value for a good reason.**  The draft that was made before
the values were looked at can be carried out: its regions can be built, and a loop around each of
them, with either test for the turns. In the kernel with these loops the value is read where its
definition does not come before. -/
theorem notDominated_of_rejected (f : Func) (config : Config) (v : ValueId) (barrier : InstrId)
    (hf : f.defects = []) (hn : f.Numbered)
    (h : f.plan config = .error (.liveAcrossBarrier v barrier)) :
    ∃ plan, f.draft config = .ok plan ∧ ∀ guard, ∃ regions loops divided lowered,
      plan.buildRegions.apply f = (.ok regions, divided) ∧
      (regions.mapM fun region : Region => region.wrap guard plan).apply divided =
        (.ok loops, lowered) ∧
      ∃ b, .notDominated b v ∈ lowered.defects := by
  have hwf := defects_eq_nil_iff.1 hf
  obtain ⟨plan, hdraft, hcross⟩ := plan_eq_liveAcrossBarrier_iff.1 h
  have hopens := opens_of_draft hwf.blocks_nodup hn.instrs_nodup hdraft
  have hloses := loses_of_crossing? hwf hn.instrs_nodup hopens hcross
  refine ⟨plan, hdraft, fun guard => ?_⟩
  rw [← draft_turnGuard guard] at hdraft
  obtain ⟨g, front, first, ws, next, hlowered, hregions, hwraps⟩ :=
    Plan.exists_lowered hwf.toShaped hn hdraft
  exact ⟨_, _, g, g.looped ws next, hregions, hwraps,
    exists_notDominated hlowered.shaped (hlowered.leaks hwf hloses)⟩

/-- A kernel that reads behind the barrier what it has computed in front of it. -/
def carrying : Func where
  name := "carrying"
  convention := .kernel
  returnTy := .void
  params := []
  blocks :=
    [⟨⟨0⟩, "entry",
        [⟨⟨0⟩, some ⟨0⟩, .call "__hip_cg_thread_rank" [], .i32⟩,
          ⟨⟨1⟩, some ⟨1⟩, .call "__hip_cg_group_size" [], .i32⟩,
          ⟨⟨2⟩, some ⟨2⟩, .binary .add ⟨0⟩ ⟨1⟩, .i32⟩,
          ⟨⟨3⟩, none, .call "__hip_cg_sync" [], .void⟩,
          ⟨⟨4⟩, some ⟨3⟩, .binary .mul ⟨2⟩ ⟨1⟩, .i32⟩],
        .ret none⟩]
  next := ⟨1, 4, 5⟩

/-- The sum is missing behind the loop. -/
theorem notDominated_of_rejected_carrying :
    carrying.defects = [] ∧ carrying.Numbered ∧
      carrying.plan .standard = .error (.liveAcrossBarrier ⟨2⟩ ⟨3⟩) ∧
      ∃ plan, carrying.draft .standard = .ok plan ∧
        ∃ regions loops divided lowered, plan.buildRegions.apply carrying = (.ok regions, divided) ∧
          (regions.mapM fun region : Region => region.wrap .rankAndSize plan).apply divided =
            (.ok loops, lowered) ∧
          ∃ b, .notDominated b ⟨2⟩ ∈ lowered.defects := by
  have hf : carrying.defects = [] := by cbv
  have hn : carrying.Numbered := ⟨by decide, by decide, by decide, by decide, by decide⟩
  have hplan : carrying.plan .standard = .error (.liveAcrossBarrier ⟨2⟩ ⟨3⟩) := by cbv
  obtain ⟨plan, hdraft, hall⟩ := notDominated_of_rejected carrying .standard ⟨2⟩ ⟨3⟩ hf hn hplan
  exact ⟨hf, hn, hplan, plan, hdraft, hall .rankAndSize⟩

end Func

end BarrierLowering
