import BarrierLowering.Proofs.StageCount

/-!
# Stages on all walks

The search fixes the stage of a block by the walk on which it comes there first. In a drafted
kernel it makes no difference which walk that is, as long as control can get from the block to an
exit: all walks to the block have run the same barriers, since the barriers that are still to come
are the same for all of them.

## Main results

* `Func.InOrder.barriersOn_eq` — the barriers that have run when control comes to a block.
* `Func.exists_mem_startStages_iff` — the reachable blocks have stages.
* `Func.startStages_of_walks` — the stage of a block, and what all walks to it have run.
-/

namespace BarrierLowering

namespace Func

variable {f : Func} {rule : NameRule} {order : List InstrId} {o : BarrierOrder} {b c : BlockId}
  {w : List BlockId} {s : Nat}

/-- Two walks to a block go on to an exit in the same way, and both have run all barriers there. So
they have run the same ones before. -/
theorem InOrder.barriersOn_eq (h : f.InOrder rule order)
    (hbc : Relation.ReflTransGen f.graph.Edge b c) (hc : f.successors c = []) :
    ∃ m ≤ order.length, ∀ w, f.graph.IsWalk (w ++ [b]) → f.barriersOn rule w = order.take m := by
  obtain ⟨t, ht, hlast⟩ : ∃ t, (b :: t).IsChain f.graph.Edge ∧ ∃ t', b :: t = t' ++ [c] := by
    rcases Relation.reflTransGen_iff_eq_or_transGen.1 hbc with rfl | htrans
    · exact ⟨[], List.isChain_singleton _, [], rfl⟩
    · obtain ⟨t, ht⟩ := Graph.exists_isChain_of_transGen htrans
      exact ⟨t ++ [c], ht, b :: t, rfl⟩
  obtain ⟨t', hlast⟩ := hlast
  refine ⟨order.length - (f.barriersOn rule (b :: t)).length, Nat.sub_le _ _, fun w hw => ?_⟩
  have hall : f.barriersOn rule w ++ f.barriersOn rule (b :: t) = order := by
    have hwalk := hw.extend ht
    rw [hlast, ← List.append_assoc] at hwalk
    rw [← barriersOn_append, hlast, ← List.append_assoc]
    exact h.onExit _ _ hwalk hc
  rw [← hall, List.length_append, Nat.add_sub_cancel, List.take_left]

/-! ### Blocks with a stage -/

theorem unlabel_startStages (o : BarrierOrder) :
    Graph.unlabel (f.startStages o) = f.graph.reachable := by
  rw [startStages, Graph.unlabel_spread, Graph.unlabel_label]
  rfl

/-- The blocks that have a stage are those that walks come to. -/
theorem exists_mem_startStages_iff : (∃ s, (b, s) ∈ f.startStages o) ↔ b ∈ f.graph.reachable := by
  rw [← unlabel_startStages o, Graph.unlabel, List.mem_map]
  simp

theorem lookup_startStages : (f.startStages o).lookup b = some s ↔ (b, s) ∈ f.startStages o := by
  refine lookup_eq_some_iff_mem ?_
  show (Graph.unlabel (f.startStages o)).Nodup
  rw [unlabel_startStages]
  exact f.graph.nodup_reachable

/-- Control has passed the anchor when it comes to another block than the entry. -/
theorem Opens.exists_anchor (h : f.Opens o) (hw : f.graph.IsWalk (w ++ [b]))
    (hb : f.entryId? ≠ some b) : ∃ y ∈ f.instrsOn w, y.id = o.anchor := by
  obtain ⟨e, pre, y, post, he, hsplit, hy, -⟩ := h
  obtain ⟨e', he', hhead⟩ := hw.start
  obtain rfl : e = e' := Option.some.inj (he.symm.trans he')
  refine ⟨y, List.mem_flatMap.2 ⟨e, ?_, hsplit ▸ List.mem_append_right _ List.mem_cons_self⟩, hy⟩
  cases w with
  | nil => exact absurd (he.trans hhead.symm) hb
  | cons x w =>
    obtain rfl : x = e := Option.some.inj hhead
    exact List.mem_cons_self

/-- **The stage of a block counts the barriers in front of it.**  In a drafted kernel, control comes
to a block other than the entry, from which it can get to an exit, after the same number of barriers
on every walk. These are the first ones of the order, and the stage is one more than twice their
number. -/
theorem startStages_of_walks (f : Func) (config : Config) (draft : Plan) (hids : f.blockIds.Nodup)
    (hinstrs : (f.instrs.map (·.id)).Nodup) (h : f.draft config = .ok draft) (b c : BlockId)
    (hentry : f.entryId? ≠ some b) (hb : b ∈ f.blockIds) (hwalk : ∃ w, f.graph.IsWalk (w ++ [b]))
    (hbc : Relation.ReflTransGen f.graph.Edge b c) (hc : f.successors c = []) :
    ∃ m ≤ draft.barriers.length,
      (∀ w, f.graph.IsWalk (w ++ [b]) →
        f.barriersOn config.nameRule w = draft.barriers.take m) ∧
      (f.startStages ⟨draft.anchor, draft.barriers⟩).lookup b = some (2 * m + 1) := by
  have hord := inOrder_of_draft hids h
  have hopens := opens_of_draft hids hinstrs h
  obtain ⟨m, hm, hrun⟩ := hord.barriersOn_eq hbc hc
  refine ⟨m, hm, hrun, ?_⟩
  rw [lookup_startStages]
  have hreach : b ∈ f.graph.reachable := Graph.mem_reachable_iff.2 ⟨hwalk, .inr hb⟩
  obtain ⟨s, hs⟩ := (exists_mem_startStages_iff (o := ⟨draft.anchor, draft.barriers⟩)).2 hreach
  -- the walk on which the search comes to the block is one of them
  obtain ⟨w, htraced, rfl⟩ := exists_traced hs
  have hpassed : (BarrierOrder.mk draft.anchor draft.barriers).passed (f.instrsOn w) =
      draft.barriers.take m := by
    rw [hord.passed_eq (o := ⟨draft.anchor, draft.barriers⟩) hinstrs
      fun i => mem_instrs_of_mem_instrsOn]
    exact hrun w htraced.walk
  have hstage := htraced.endStage_eq hinstrs hopens hord List.nil_prefix
    ((List.append_nil (f.instrsOn w)).symm ▸ List.prefix_rfl)
    (hopens.exists_anchor htraced.walk hentry)
  rwa [hstage, hpassed, List.length_take, Nat.min_eq_left hm] at hs

/-- A kernel that comes to its barriers in two ways, of which one goes round in a loop. -/
def rejoining : Func where
  name := "rejoining"
  convention := .kernel
  returnTy := .void
  params := []
  blocks :=
    [⟨⟨0⟩, "entry",
        [⟨⟨0⟩, some ⟨0⟩, .call "__hip_cg_thread_rank" [], .i32⟩,
          ⟨⟨1⟩, some ⟨1⟩, .call "__hip_cg_group_size" [], .i32⟩,
          ⟨⟨2⟩, some ⟨2⟩, .const (.bool true), .bool⟩],
        .condBranch ⟨2⟩ ⟨1⟩ ⟨2⟩⟩,
      ⟨⟨1⟩, "loop", [], .condBranch ⟨2⟩ ⟨1⟩ ⟨3⟩⟩,
      ⟨⟨2⟩, "skip", [], .branch ⟨3⟩⟩,
      ⟨⟨3⟩, "first", [⟨⟨3⟩, none, .call "__hip_cg_sync" [], .void⟩], .branch ⟨4⟩⟩,
      ⟨⟨4⟩, "second", [⟨⟨4⟩, none, .call "__hip_cg_sync" [], .void⟩], .ret none⟩]
  next := ⟨5, 3, 5⟩

/-- In either way one barrier has run when control comes to the second one. -/
theorem startStages_of_walks_rejoining : rejoining.blockIds.Nodup ∧
    (rejoining.instrs.map (·.id)).Nodup ∧ rejoining.entryId? ≠ some ⟨4⟩ ∧
    ⟨4⟩ ∈ rejoining.blockIds ∧ rejoining.graph.IsWalk ([⟨0⟩, ⟨1⟩, ⟨1⟩, ⟨3⟩] ++ [⟨4⟩]) ∧
    rejoining.graph.IsWalk ([⟨0⟩, ⟨2⟩, ⟨3⟩] ++ [⟨4⟩]) ∧ rejoining.successors ⟨4⟩ = [] ∧
    ∃ draft, rejoining.draft .standard = .ok draft ∧ draft.barriers = [⟨3⟩, ⟨4⟩] ∧
      rejoining.barriersOn .intrinsics [⟨0⟩, ⟨1⟩, ⟨1⟩, ⟨3⟩] = draft.barriers.take 1 ∧
      rejoining.barriersOn .intrinsics [⟨0⟩, ⟨2⟩, ⟨3⟩] = draft.barriers.take 1 ∧
      (rejoining.startStages ⟨draft.anchor, draft.barriers⟩).lookup ⟨4⟩ = some (2 * 1 + 1) := by
  have hids : rejoining.blockIds.Nodup := by decide
  have hinstrs : (rejoining.instrs.map (·.id)).Nodup := by decide
  have hentry : rejoining.entryId? ≠ some ⟨4⟩ := by decide
  have hmem : (⟨4⟩ : BlockId) ∈ rejoining.blockIds := by decide
  have hlong : rejoining.graph.IsWalk ([⟨0⟩, ⟨1⟩, ⟨1⟩, ⟨3⟩] ++ [⟨4⟩]) :=
    ⟨⟨⟨0⟩, rfl, rfl⟩, by decide⟩
  have hshort : rejoining.graph.IsWalk ([⟨0⟩, ⟨2⟩, ⟨3⟩] ++ [⟨4⟩]) := ⟨⟨⟨0⟩, rfl, rfl⟩, by decide⟩
  have hexit : rejoining.successors ⟨4⟩ = [] := rfl
  have hdraft : rejoining.draft .standard =
      .ok ⟨⟨⟨0⟩, ⟨1⟩, ⟨0⟩, ⟨1⟩, .i32, .i32⟩, [⟨3⟩, ⟨4⟩],
        [⟨⟨3⟩, ⟨3⟩, .simple⟩, ⟨⟨4⟩, ⟨4⟩, .simple⟩], 3⟩ := by cbv
  obtain ⟨m, hm, hrun, hstage⟩ := startStages_of_walks rejoining .standard _ hids hinstrs hdraft
    ⟨4⟩ ⟨4⟩ hentry hmem ⟨_, hlong⟩ .refl hexit
  -- the walk that skips the loop tells how many barriers these are
  obtain rfl : m = 1 := by
    have hlength := congrArg List.length (hrun _ hshort)
    rw [List.length_take, Nat.min_eq_left hm] at hlength
    exact hlength.symm
  exact ⟨hids, hinstrs, hentry, hmem, hlong, hshort, hexit, _, hdraft, rfl, hrun _ hlong,
    hrun _ hshort, hstage⟩

end Func

end BarrierLowering
