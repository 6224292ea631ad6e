import BarrierLowering.Proofs.Dominators

/-!
# The control flow of a function

When the blocks of a function have distinct identifiers, looking a block up finds the only
block of that identifier, and the edges of the control flow are the targets of terminators.

## Main results

* `Func.block?_eq_some_iff` — looking a block up.
* `Func.edge_iff` — the edges are the targets of terminators.
* `Func.mem_predecessors` — a predecessor branches to the block.
* `Func.mem_reachable_iff` — the reachable blocks are the ends of the walks.
* `Func.dominators_exact` — what the dominator table of a function says.
-/

namespace BarrierLowering

/-- A list without repeats is what is left of it without its repeats. -/
theorem eraseDups_eq_self {α : Type} [DecidableEq α] {l : List α} (h : l.Nodup) :
    l.eraseDups = l := by
  induction l with
  | nil => rfl
  | cons a l ih =>
    obtain ⟨ha, hl⟩ := List.nodup_cons.1 h
    have hfilter : l.filter (fun b => !b == a) = l := by
      rw [List.filter_eq_self]
      intro b hb
      have hne : b ≠ a := fun hba => ha (hba ▸ hb)
      simp [hne]
    rw [List.eraseDups_cons, hfilter, ih hl]

namespace Func

variable {f : Func} {a b : BlockId} {blk blk' : Block}

/-! ### Looking blocks up -/

theorem block?_mem (h : f.block? b = some blk) : blk ∈ f.blocks ∧ blk.id = b := by
  refine ⟨List.mem_of_find?_eq_some h, ?_⟩
  simpa using List.find?_some h

/-- With distinct identifiers, looking a block up finds the only block of that identifier. -/
theorem block?_eq_some_iff (hnd : f.blockIds.Nodup) :
    f.block? b = some blk ↔ blk ∈ f.blocks ∧ blk.id = b := by
  refine ⟨block?_mem, ?_⟩
  rintro ⟨hmem, rfl⟩
  have hsome : (f.block? blk.id).isSome := by
    rw [block?, List.find?_isSome]
    exact ⟨blk, hmem, by simp⟩
  obtain ⟨found, hfound⟩ := Option.isSome_iff_exists.1 hsome
  obtain ⟨hin, hid⟩ := block?_mem hfound
  rw [hfound, List.inj_on_of_nodup_map hnd hin hmem hid]

theorem block?_id (hnd : f.blockIds.Nodup) (h : blk ∈ f.blocks) : f.block? blk.id = some blk :=
  (block?_eq_some_iff hnd).2 ⟨h, rfl⟩

theorem mem_blockIds_iff : b ∈ f.blockIds ↔ ∃ blk, f.block? b = some blk := by
  constructor
  · intro h
    obtain ⟨blk, hblk, rfl⟩ := List.mem_map.1 h
    rw [← Option.isSome_iff_exists, block?, List.find?_isSome]
    exact ⟨blk, hblk, by simp⟩
  · rintro ⟨blk, h⟩
    obtain ⟨hmem, rfl⟩ := block?_mem h
    exact List.mem_map.2 ⟨blk, hmem, rfl⟩

theorem block?_eq_none_iff : f.block? b = none ↔ b ∉ f.blockIds := by
  rw [mem_blockIds_iff, ← Option.ne_none_iff_exists', not_not]

theorem entryId?_mem (h : f.entryId? = some b) : b ∈ f.blockIds := by
  obtain ⟨blk, hblk, rfl⟩ := Option.map_eq_some_iff.1 h
  exact List.mem_map.2 ⟨blk, List.mem_of_mem_head? hblk, rfl⟩

/-! ### Edges -/

theorem successors_of_block? (h : f.block? b = some blk) :
    f.successors b = blk.term.targets.eraseDups := by
  rw [successors, h]

/-- A block with distinct targets has these as its successors. -/
theorem successors_eq_targets (h : f.block? b = some blk) (hnd : blk.term.targets.Nodup) :
    f.successors b = blk.term.targets := by
  rw [successors_of_block? h, eraseDups_eq_self hnd]

/-- The successors in the graph are the successors in the function. -/
theorem succs_graph (f : Func) (b : BlockId) : f.graph.succs b = f.successors b := by
  unfold Graph.succs
  split
  · cases h : f.block? b with
    | none => simp [graph, successors, h]
    | some blk =>
      show (f.successors b).eraseDups = _
      rw [successors_of_block? h]
      exact eraseDups_eq_self (nodup_eraseDups _)
  · next hb => rw [successors, block?_eq_none_iff.2 hb]

/-- The edges are the targets of terminators. -/
theorem edge_iff : f.graph.Edge a b ↔ ∃ blk, f.block? a = some blk ∧ b ∈ blk.term.targets := by
  rw [Graph.Edge, succs_graph, successors]
  cases h : f.block? a with
  | none => simp
  | some blk => simp [List.mem_eraseDups]

/-- A predecessor of a block is a block that branches to it. -/
theorem mem_predecessors :
    a ∈ f.predecessors b ↔ ∃ blk ∈ f.blocks, blk.id = a ∧ b ∈ blk.term.targets := by
  simp only [predecessors, List.mem_map, List.mem_filter, decide_eq_true_iff, and_assoc]
  constructor
  · rintro ⟨blk, hblk, hb, rfl⟩
    exact ⟨blk, hblk, rfl, hb⟩
  · rintro ⟨blk, hblk, rfl, hb⟩
    exact ⟨blk, hblk, hb, rfl⟩

/-- With distinct identifiers, the predecessors are the sources of the edges. -/
theorem mem_predecessors_iff_edge (hnd : f.blockIds.Nodup) :
    a ∈ f.predecessors b ↔ f.graph.Edge a b := by
  rw [mem_predecessors, edge_iff]
  simp only [block?_eq_some_iff hnd, and_assoc]

theorem nodup_predecessors (hnd : f.blockIds.Nodup) : (f.predecessors b).Nodup :=
  hnd.sublist (List.Sublist.map _ List.filter_sublist)

/-- The sources of the edges to a block, in some order, are its predecessors. -/
theorem predecessors_perm_of_edge (hnd : f.blockIds.Nodup) {sources : List BlockId}
    (hsources : sources.Nodup) (h : ∀ a, f.graph.Edge a b ↔ a ∈ sources) :
    (f.predecessors b).Perm sources := by
  rw [List.perm_ext_iff_of_nodup (nodup_predecessors hnd) hsources]
  exact fun a => (mem_predecessors_iff_edge hnd).trans (h a)

/-! ### Reachable blocks -/

/-- The reachable blocks are the ends of the walks. -/
theorem mem_reachable_iff :
    b ∈ f.graph.reachable ↔ (∃ w, f.graph.IsWalk (w ++ [b])) ∧ b ∈ f.blockIds := by
  rw [Graph.mem_reachable_iff]
  refine and_congr_right fun _ => ⟨?_, Or.inr⟩
  rintro (h | h)
  · exact entryId?_mem h
  · exact h

/-- Where terminators branch to existing blocks only, every node of a walk is a block. -/
theorem mem_blockIds_of_isWalk
    (htargets : ∀ blk ∈ f.blocks, ∀ t ∈ blk.term.targets, t ∈ f.blockIds) {w : List BlockId}
    (h : f.graph.IsWalk (w ++ [b])) : b ∈ f.blockIds := by
  refine Graph.IsWalk.snocInduction (motive := fun _ b => b ∈ f.blockIds) ?_ ?_ w b h
  · intro e he
    exact entryId?_mem he
  · rintro w a b - hab -
    obtain ⟨blk, hblk, hb⟩ := edge_iff.1 hab
    exact htargets blk (block?_mem hblk).1 b hb

/-- **The dominators of a function are exact.** Identifiers may repeat, where the first block
counts, and terminators may name blocks that do not exist. A block has a row if a walk visits
it; its row then holds what is on all walks to it. Without a row, everything dominates it. -/
theorem dominators_exact (f : Func) :
    (∀ b, f.dominators.isReachable b = true ↔ b ∈ f.blockIds ∧ ∃ w, f.graph.IsWalk w ∧ b ∈ w) ∧
    (∀ b, f.dominators.isReachable b = true → ∀ d, f.dominators.dominates d b = true ↔
      ∀ w, f.graph.IsWalk (w ++ [b]) → d ∈ w ++ [b]) ∧
    ∀ b, f.dominators.isReachable b = false → ∀ d, f.dominators.dominates d b = true := by
  have hrow : ∀ b, f.dominators.isReachable b = true ↔ b ∈ f.graph.reachable := fun b =>
    Graph.isReachable_dominators
  refine ⟨fun b => ?_, fun b hb d => ?_, fun b hb d => ?_⟩
  · rw [hrow, mem_reachable_iff, and_comm]
    refine and_congr_right fun _ => ⟨fun ⟨w, hw⟩ => ⟨w ++ [b], hw, by simp⟩, ?_⟩
    -- a walk that visits the block is one to the block if it is broken off there
    rintro ⟨w, hw, hb⟩
    obtain ⟨w₁, w₂, rfl⟩ := List.append_of_mem hb
    exact ⟨w₁, hw.stop⟩
  · exact Graph.dominates_dominators ((hrow b).1 hb)
  · refine Graph.dominates_of_not_mem_reachable fun hreach => ?_
    rw [(hrow b).2 hreach] at hb
    cases hb

end Func

end BarrierLowering
