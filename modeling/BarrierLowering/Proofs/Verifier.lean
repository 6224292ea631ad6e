import BarrierLowering.Proofs.WellFormed
import Mathlib

/-!
# The verifier

The defects of a function are looked for one kind after another. Each kind is absent exactly
when one condition of well-formedness holds, so a function has no defects if and only if it is
well formed.

## Main results

* `Func.defects_eq_nil_iff` — no defects, and well-formedness.
* `Func.reads_available` — what a function without defects promises of every walk.
-/

namespace BarrierLowering

/-! ### Repeats and order -/

theorem repeats_eq_nil_iff {α : Type} [DecidableEq α] {seen l : List α} :
    repeats seen l = [] ↔ l.Nodup ∧ ∀ a ∈ l, a ∉ seen := by
  induction l generalizing seen with
  | nil => simp [repeats]
  | cons a l ih =>
    rw [repeats]
    by_cases ha : a ∈ seen
    · simp [ha]
    · rw [if_neg ha, ih, List.nodup_cons]
      constructor
      · rintro ⟨hnd, hall⟩
        refine ⟨⟨fun hal => hall a hal List.mem_cons_self, hnd⟩, fun b hb => ?_⟩
        rcases List.mem_cons.1 hb with rfl | hb
        · exact ha
        · exact fun hbs => hall b hb (List.mem_cons_of_mem _ hbs)
      · rintro ⟨⟨hal, hnd⟩, hall⟩
        refine ⟨hnd, fun b hb hbs => ?_⟩
        rcases List.mem_cons.1 hbs with rfl | hbs
        · exact hal hb
        · exact hall b (List.mem_cons_of_mem _ hb) hbs

/-- Sorting tells two lists apart only by what they hold. -/
theorem BlockId.sort_eq_sort_iff {l l' : List BlockId} :
    BlockId.sort l = BlockId.sort l' ↔ l.Perm l' := by
  constructor
  · intro h
    have hl := List.mergeSort_perm l fun a b => decide (a.index ≤ b.index)
    have hl' := List.mergeSort_perm l' fun a b => decide (a.index ≤ b.index)
    exact (hl.symm.trans (List.Perm.of_eq h)).trans hl'
  · intro h
    have hsorted : ∀ l : List BlockId,
        (BlockId.sort l).Pairwise fun a b => decide (a.index ≤ b.index) := fun l =>
      List.pairwise_mergeSort (by simpa using fun a b c => Nat.le_trans)
        (by simpa using fun a b => Nat.le_total _ _) l
    refine List.Perm.eq_of_pairwise (fun a b _ _ hab hba => ?_) (hsorted l) (hsorted l') ?_
    · obtain ⟨i⟩ := a
      obtain ⟨j⟩ := b
      rw [BlockId.mk.injEq]
      simp only [decide_eq_true_iff] at hab hba
      exact Nat.le_antisymm hab hba
    · exact ((List.mergeSort_perm l _).trans h).trans (List.mergeSort_perm l' _).symm

namespace Func

variable {f : Func} {b : BlockId} {blk : Block} {v : ValueId} {i : Instr}

/-! ### The defects, one kind after another -/

theorem duplicateBlocks_eq_nil_iff : f.duplicateBlocks = [] ↔ f.blockIds.Nodup := by
  rw [duplicateBlocks, List.map_eq_nil_iff, repeats_eq_nil_iff]
  simp

theorem unknownTargets_eq_nil_iff : f.unknownTargets = [] ↔
    ∀ blk ∈ f.blocks, ∀ t ∈ blk.term.targets, t ∈ f.blockIds := by
  simp only [unknownTargets, List.flatMap_eq_nil_iff, List.map_eq_nil_iff, List.filter_eq_nil_iff,
    decide_eq_true_iff, not_not]

theorem duplicateDefinitions_eq_nil_iff : f.duplicateDefinitions = [] ↔
    f.results.Nodup ∧ ∀ v ∈ f.results, v ∉ f.paramValues := by
  rw [duplicateDefinitions, List.map_eq_nil_iff, repeats_eq_nil_iff]

theorem earlyUses_eq_nil_iff {pos : Nat} {doms : DomTable BlockId} :
    f.earlyUses doms b i pos = [] ↔
      (i.isPhi = false → ∀ v ∈ i.op.operands, f.definedBefore doms v b (some pos) = true) ∧
      ∀ e ∈ i.incoming, f.definedBefore doms e.2 e.1 none = true := by
  cases hop : i.op <;>
    simp [earlyUses, Instr.isPhi, Instr.incoming, hop, List.filter_eq_nil_iff]

theorem mem_earlyUses_iff {pos : Nat} {doms : DomTable BlockId} {d : Defect} :
    d ∈ f.earlyUses doms b i pos ↔
      (i.isPhi = false ∧ ∃ v ∈ i.op.operands, f.definedBefore doms v b (some pos) = false ∧
        .notDominated b v = d) ∨
      ∃ e ∈ i.incoming, f.definedBefore doms e.2 e.1 none = false ∧ .notDominated e.1 e.2 = d := by
  cases hop : i.op <;>
    simp [earlyUses, Instr.isPhi, Instr.incoming, hop, and_assoc]

/-- A position in a list is a way to cut it. -/
theorem mem_zipIdx_iff_split {α : Type} {l : List α} {x : α} {n : Nat} :
    (x, n) ∈ l.zipIdx ↔ ∃ l₁ l₂, l = l₁ ++ x :: l₂ ∧ l₁.length = n := by
  rw [List.mk_mem_zipIdx_iff_getElem?]
  constructor
  · intro h
    obtain ⟨hlt, rfl⟩ := List.getElem?_eq_some_iff.1 h
    refine ⟨l.take n, l.drop (n + 1), ?_, ?_⟩
    · rw [← List.drop_eq_getElem_cons hlt, List.take_append_drop]
    · rw [List.length_take, Nat.min_eq_left hlt.le]
  · rintro ⟨l₁, l₂, rfl, rfl⟩
    simp

theorem dominanceDefects_eq_nil_iff : f.dominanceDefects = [] ↔
    ∀ blk ∈ f.blocks, blk.id ∈ f.graph.reachable →
      (∀ is i js, blk.instrs = is ++ i :: js →
        (i.isPhi = false → ∀ v ∈ i.op.operands,
          f.definedBefore f.dominators v blk.id (some is.length) = true) ∧
        ∀ e ∈ i.incoming, f.definedBefore f.dominators e.2 e.1 none = true) ∧
      ∀ v ∈ blk.term.operands, f.definedBefore f.dominators v blk.id none = true := by
  simp only [dominanceDefects, List.flatMap_eq_nil_iff, List.mem_filter, and_imp,
    List.append_eq_nil_iff, List.map_eq_nil_iff, List.filter_eq_nil_iff, Bool.not_eq_true',
    Bool.not_eq_false, Prod.forall, mem_zipIdx_iff_split, earlyUses_eq_nil_iff]
  refine forall₂_congr fun blk _ => ?_
  rw [dominators, Graph.isReachable_dominators]
  refine imp_congr_right fun _ => and_congr_left fun _ => ?_
  constructor
  · intro h is i js hsplit
    exact h i is.length ⟨is, js, hsplit, rfl⟩
  · rintro h i pos ⟨is, js, hsplit, rfl⟩
    exact h is i js hsplit

theorem undefinedOperands_eq_nil_iff {defined operands : List ValueId} :
    undefinedOperands defined b operands = [] ↔ ∀ v ∈ operands, v ∈ defined := by
  simp [undefinedOperands, List.filter_eq_nil_iff]

/-- The phi nodes lead a block if none is left after the group it opens with. -/
theorem phis_lead_iff : (∀ is i js, blk.instrs = is ++ i :: js → i.isPhi = true →
    is.length < blk.phiCount) ↔ ∀ i ∈ blk.instrs.drop blk.phiCount, i.isPhi = false := by
  constructor
  · intro h i hi
    by_contra hphi
    obtain ⟨js, ks, hsplit⟩ := List.append_of_mem hi
    have hlt := h (blk.instrs.take blk.phiCount ++ js) i ks
      (by rw [List.append_assoc, ← hsplit, List.take_append_drop]) (by simpa using hphi)
    have hle : blk.phiCount ≤ blk.instrs.length := (List.takeWhile_prefix _).length_le
    rw [List.length_append, List.length_take] at hlt
    omega
  · intro h is i js hsplit hphi
    by_contra hge
    have hmem : i ∈ blk.instrs.drop blk.phiCount := by
      rw [hsplit, List.drop_append_of_le_length (Nat.le_of_not_lt hge)]
      exact List.mem_append_right _ List.mem_cons_self
    rw [h i hmem] at hphi
    cases hphi

theorem phiDefects_eq_nil_iff {preds : List BlockId} {n pos : Nat} :
    phiDefects preds n b i pos = [] ↔ i.isPhi = true →
      pos < n ∧ BlockId.sort (i.incoming.map (·.1)) = preds := by
  cases hop : i.op with
  | phi incoming =>
    simp only [phiDefects, Instr.isPhi, Instr.incoming, hop, List.append_eq_nil_iff, true_implies]
    refine and_congr ?_ ?_
    · split <;> simp_all
    · split <;> simp_all
  | _ => simp [phiDefects, Instr.isPhi, hop]

theorem blockDefects_eq_nil_iff (hids : f.blockIds.Nodup) : f.blockDefects blk = [] ↔
    (∀ i ∈ blk.instrs.drop blk.phiCount, i.isPhi = false) ∧
    (∀ i ∈ blk.instrs, i.isPhi = true → (i.incoming.map (·.1)).Perm (f.predecessors blk.id)) ∧
    (∀ i ∈ blk.instrs, ∀ v ∈ i.op.operands, v ∈ f.paramValues ++ f.results) ∧
    ∀ v ∈ blk.term.operands, v ∈ f.paramValues ++ f.results := by
  rw [← phis_lead_iff]
  simp only [blockDefects, List.append_eq_nil_iff, List.flatMap_eq_nil_iff, Prod.forall,
    mem_zipIdx_iff_split, phiDefects_eq_nil_iff, undefinedOperands_eq_nil_iff,
    eraseDups_eq_self (nodup_predecessors hids), BlockId.sort_eq_sort_iff, ← and_assoc]
  refine and_congr_left fun _ => ?_
  constructor
  · intro h
    refine ⟨⟨fun is i js hsplit hphi => ?_, fun i hi hphi => ?_⟩, fun i hi => ?_⟩
    · exact ((h i is.length ⟨is, js, hsplit, rfl⟩).1 hphi).1
    · obtain ⟨is, js, hsplit⟩ := List.append_of_mem hi
      exact ((h i is.length ⟨is, js, hsplit, rfl⟩).1 hphi).2
    · obtain ⟨is, js, hsplit⟩ := List.append_of_mem hi
      exact (h i is.length ⟨is, js, hsplit, rfl⟩).2
  · rintro ⟨⟨hlead, hmatch⟩, hdef⟩ i pos ⟨is, js, hsplit, rfl⟩
    have hi : i ∈ blk.instrs := by simp [hsplit]
    exact ⟨fun hphi => ⟨hlead is i js hsplit hphi, hmatch i hi hphi⟩, hdef i hi⟩

/-! ### Dominance and soundness -/

/-- A phi node names exactly the blocks with an edge into its block. -/
theorem mem_incoming_edge (hids : f.blockIds.Nodup) {c : BlockId}
    (hmatch : (i.incoming.map (·.1)).Perm (f.predecessors c)) (hv : (b, v) ∈ i.incoming) :
    f.graph.Edge b c :=
  (mem_predecessors_iff_edge hids).1 (hmatch.mem_iff.1 (List.mem_map.2 ⟨(b, v), hv, rfl⟩))

/-- With everything else in order, no use comes too early exactly when all walks are sound. -/
theorem dominanceDefects_eq_nil_iff_sound (hids : f.blockIds.Nodup)
    (htargets : ∀ blk ∈ f.blocks, ∀ t ∈ blk.term.targets, t ∈ f.blockIds)
    (hnd : f.results.Nodup) (hfresh : ∀ v ∈ f.results, v ∉ f.paramValues)
    (hmatch : ∀ blk ∈ f.blocks, ∀ i ∈ blk.instrs, i.isPhi = true →
      (i.incoming.map (·.1)).Perm (f.predecessors blk.id))
    (hdef : ∀ blk ∈ f.blocks,
      (∀ i ∈ blk.instrs, ∀ v ∈ i.op.operands, v ∈ f.paramValues ++ f.results) ∧
        ∀ v ∈ blk.term.operands, v ∈ f.paramValues ++ f.results) :
    f.dominanceDefects = [] ↔ ∀ w, f.graph.IsWalk w → f.Sound (f.events w) := by
  have hphi : ∀ {i : Instr} {e : BlockId × ValueId}, e ∈ i.incoming →
      i.isPhi = true ∧ e.2 ∈ i.op.operands := by
    intro i e he
    cases hop : i.op <;> simp_all [Instr.incoming, Instr.isPhi, Op.operands]
    exact ⟨e.1, he⟩
  rw [dominanceDefects_eq_nil_iff, sound_walks_iff htargets]
  constructor
  · intro h w b blk hw hb
    obtain ⟨hblk, rfl⟩ := block?_mem hb
    have hreach : blk.id ∈ f.graph.reachable :=
      mem_reachable_iff.2 ⟨⟨w, hw⟩, mem_blockIds_iff.2 ⟨blk, hb⟩⟩
    obtain ⟨hinstrs, hterm⟩ := h blk hblk hreach
    refine ⟨fun is i js hsplit hi v hv => ?_, fun v hv => ?_, fun c cblk hbc hc i hi v hin => ?_⟩
    · have hvdef := (hdef blk hblk).1 i (by simp [hsplit]) v hv
      have hbefore := (hinstrs is i js hsplit).1 hi v hv
      rw [definedBefore_iff_supplied hids hnd hfresh hb hreach hvdef] at hbefore
      simpa [Block.before, hsplit] using hbefore w hw
    · have hvdef := (hdef blk hblk).2 v hv
      exact (definedBefore_iff_supplied hids hnd hfresh hb hreach hvdef none).1 (hterm v hv) w hw
    · obtain ⟨hcblk, rfl⟩ := block?_mem hc
      obtain ⟨is, js, hsplit⟩ := List.append_of_mem hi
      have hcreach : cblk.id ∈ f.graph.reachable :=
        mem_reachable_iff.2 ⟨⟨_, hw.snoc hbc⟩, mem_blockIds_iff.2 ⟨cblk, hc⟩⟩
      have hvdef := (hdef cblk hcblk).1 i hi v (hphi hin).2
      have hbefore := ((h cblk hcblk hcreach).1 is i js hsplit).2 _ hin
      exact (definedBefore_iff_supplied hids hnd hfresh hb hreach hvdef none).1 hbefore w hw
  · intro h blk hblk hreach
    have hb := block?_id hids hblk
    refine ⟨fun is i js hsplit => ⟨fun hi v hv => ?_, fun e he => ?_⟩, fun v hv => ?_⟩
    · have hvdef := (hdef blk hblk).1 i (by simp [hsplit]) v hv
      rw [definedBefore_iff_supplied hids hnd hfresh hb hreach hvdef]
      intro w hw
      simpa [Block.before, hsplit] using (h w blk.id blk hw hb).1 is i js hsplit hi v hv
    · obtain ⟨source, v⟩ := e
      have hi : i ∈ blk.instrs := by simp [hsplit]
      have hedge := mem_incoming_edge hids (hmatch blk hblk i hi (hphi he).1) he
      by_cases hsource : source ∈ f.graph.reachable
      · obtain ⟨sblk, hs⟩ := mem_blockIds_iff.1 (mem_reachable_iff.1 hsource).2
        have hvdef := (hdef blk hblk).1 i hi v (hphi he).2
        rw [definedBefore_iff_supplied hids hnd hfresh hs hsource hvdef]
        intro w hw
        exact (h w source sblk hw hs).phis blk.id blk hedge hb i hi v he
      · exact definedBefore_of_not_reachable hsource
    · have hvdef := (hdef blk hblk).2 v hv
      rw [definedBefore_iff_supplied hids hnd hfresh hb hreach hvdef]
      intro w hw
      exact (h w blk.id blk hw hb).term v hv

/-! ### The whole check -/

/-- A function has no defects if it has the right shape and no use comes too early. -/
theorem defects_eq_nil_iff_shaped : f.defects = [] ↔ f.Shaped ∧ f.dominanceDefects = [] := by
  rw [defects]
  by_cases hne : f.blocks = []
  · simp only [hne, List.isEmpty_nil, if_true, List.cons_ne_nil, false_iff]
    exact fun h => h.1.nonempty hne
  · have hempty : f.blocks.isEmpty = false := by simpa using hne
    simp only [hempty, Bool.false_eq_true, if_false, List.append_eq_nil_iff,
      List.flatMap_eq_nil_iff, duplicateBlocks_eq_nil_iff, unknownTargets_eq_nil_iff,
      duplicateDefinitions_eq_nil_iff]
    constructor
    · rintro ⟨⟨⟨⟨hids, htargets⟩, hnd, hfresh⟩, hdom⟩, hblocks⟩
      simp only [blockDefects_eq_nil_iff hids] at hblocks
      exact ⟨⟨hne, hids, htargets, hnd, hfresh, fun blk hblk => (hblocks blk hblk).1,
        fun blk hblk => (hblocks blk hblk).2.1, fun blk hblk => (hblocks blk hblk).2.2⟩, hdom⟩
    · rintro ⟨hs, hdom⟩
      refine ⟨⟨⟨⟨hs.blocks_nodup, hs.targets_exist⟩, hs.results_nodup, hs.results_fresh⟩, hdom⟩,
        fun blk hblk => ?_⟩
      exact (blockDefects_eq_nil_iff hs.blocks_nodup).2
        ⟨hs.phis_lead blk hblk, hs.phis_match blk hblk, hs.operands_defined blk hblk⟩

/-- A function has no defects if and only if it is well formed. -/
theorem defects_eq_nil_iff : f.defects = [] ↔ f.WellFormed := by
  rw [defects_eq_nil_iff_shaped]
  have hsound : f.Shaped →
      (f.dominanceDefects = [] ↔ ∀ w, f.graph.IsWalk w → f.Sound (f.events w)) :=
    fun hs => dominanceDefects_eq_nil_iff_sound hs.blocks_nodup hs.targets_exist hs.results_nodup
      hs.results_fresh hs.phis_match hs.operands_defined
  constructor
  · rintro ⟨hs, hdom⟩
    exact ⟨hs, (hsound hs).1 hdom⟩
  · intro hwf
    exact ⟨hwf.toShaped, (hsound hwf.toShaped).2 hwf.sound⟩

/-! ### What the check promises -/

/-- A predecessor of the block of a phi node is named once. -/
theorem filter_incoming_eq_singleton {prev c : BlockId}
    (hmatch : (i.incoming.map (·.1)).Perm (f.predecessors c)) (hids : f.blockIds.Nodup)
    (hprev : f.graph.Edge prev c) :
    ∃ v, i.incoming.filter (fun e => e.1 = prev) = [(prev, v)] := by
  have hcount : (i.incoming.map (·.1)).count prev = 1 := by
    rw [hmatch.count_eq]
    exact List.count_eq_one_of_mem (nodup_predecessors hids)
      ((mem_predecessors_iff_edge hids).2 hprev)
  have hlen : (i.incoming.filter fun e => e.1 = prev).length = 1 := by
    rw [← hcount, List.count_eq_countP, List.countP_map, ← List.countP_eq_length_filter]
    exact List.countP_congr fun e _ => by simp
  obtain ⟨⟨source, v⟩, hone⟩ := List.length_eq_one_iff.1 hlen
  have hsource : (source, v) ∈ i.incoming.filter fun e => e.1 = prev := by simp [hone]
  obtain rfl : source = prev := by simpa using (List.mem_filter.1 hsource).2
  exact ⟨v, hone⟩

/-- What is written on the way to a block is the result of an instruction that ran before. -/
theorem supplied_arrival_iff {w : List BlockId} {is : List Instr} :
    f.Supplied (f.arrival w b ++ is.flatMap Instr.events) v ↔
      v ∈ f.paramValues ∨ ∃ d ∈ f.instrsOn w ++ is, d.result = some v := by
  rw [Supplied, List.mem_append, write_mem_arrival, write_mem_events, write_mem_flatMap]
  simp only [List.mem_append, or_and_right, exists_or]

/-- **A function without defects reads nothing that is not there.**  On a walk of any length,
what an instruction or a terminator reads is a parameter or the result of an instruction that
ran before it, and a phi node has one value for the block that control came from, which is
there as well. -/
theorem reads_available (f : Func) (hf : f.defects = []) (w₁ : List BlockId) (b : BlockId)
    (w₂ : List BlockId) (hw : f.graph.IsWalk (w₁ ++ b :: w₂)) :
    ∃ blk, f.block? b = some blk ∧
      (∀ is i js, blk.instrs = is ++ i :: js → i.isPhi = false → ∀ v ∈ i.op.operands,
        v ∈ f.paramValues ∨ ∃ d ∈ f.instrsOn w₁ ++ is, d.result = some v) ∧
      (∀ v ∈ blk.term.operands,
        v ∈ f.paramValues ∨ ∃ d ∈ f.instrsOn w₁ ++ blk.instrs, d.result = some v) ∧
      ∀ i ∈ blk.instrs, i.isPhi = true → ∀ prev ∈ w₁.getLast?,
        ∃ v, i.incoming.filter (fun e => e.1 = prev) = [(prev, v)] ∧
          (v ∈ f.paramValues ∨ ∃ d ∈ f.instrsOn w₁, d.result = some v) := by
  have hwf := defects_eq_nil_iff.1 hf
  have hlocal := (sound_walks_iff hwf.targets_exist).1 hwf.sound
  obtain ⟨blk, hb⟩ := mem_blockIds_iff.1 (mem_blockIds_of_isWalk hwf.targets_exist hw.stop)
  obtain ⟨hblk, rfl⟩ := block?_mem hb
  obtain ⟨hinstrs, hterm, -⟩ := hlocal w₁ blk.id blk hw.stop hb
  simp only [supplied_arrival_iff] at hinstrs hterm
  refine ⟨blk, hb, hinstrs, hterm, fun i hi hphi prev hprev => ?_⟩
  -- the phi nodes are read at the end of the block before
  cases w₁ using List.reverseRecOn with
  | nil => cases hprev
  | append_singleton w a =>
    obtain rfl : a = prev := by simpa using hprev
    obtain ⟨hw₁, hedge⟩ := Graph.isWalk_snoc.1 hw.stop
    obtain ⟨v, hone⟩ := filter_incoming_eq_singleton (hwf.phis_match blk hblk i hi hphi)
      hwf.blocks_nodup hedge
    have hin : (a, v) ∈ i.incoming := by
      have hmem : (a, v) ∈ i.incoming.filter fun e => e.1 = a := by simp [hone]
      exact (List.mem_filter.1 hmem).1
    obtain ⟨ablk, ha⟩ := mem_blockIds_iff.1 (mem_blockIds_of_isWalk hwf.targets_exist hw₁)
    have hsupply := (hlocal w a ablk hw₁ ha).phis blk.id blk hedge hb i hi v hin
    rw [supplied_arrival_iff] at hsupply
    refine ⟨v, hone, ?_⟩
    rwa [instrsOn, List.flatMap_append, List.flatMap_singleton, instrsOf_of_block? ha]

/-- A kernel with a loop that doubles a number. -/
def doubling : Func where
  name := "doubling"
  convention := .kernel
  returnTy := .void
  params := []
  blocks :=
    [⟨⟨0⟩, "entry", [⟨⟨0⟩, some ⟨0⟩, .const (.int 1 .i32), .i32⟩], .branch ⟨1⟩⟩,
      ⟨⟨1⟩, "loop",
        [⟨⟨1⟩, some ⟨1⟩, .phi [(⟨1⟩, ⟨2⟩), (⟨0⟩, ⟨0⟩)], .i32⟩,
          ⟨⟨2⟩, some ⟨2⟩, .binary .add ⟨1⟩ ⟨1⟩, .i32⟩,
          ⟨⟨3⟩, some ⟨3⟩, .binary .slt ⟨2⟩ ⟨0⟩, .bool⟩],
        .condBranch ⟨3⟩ ⟨1⟩ ⟨2⟩⟩,
      ⟨⟨2⟩, "exit", [], .ret (some ⟨2⟩)⟩]
  next := ⟨3, 4, 4⟩

/-- In the second round of the loop, the phi node takes what the first round computed. -/
theorem reads_available_doubling :
    doubling.defects = [] ∧ doubling.graph.IsWalk [⟨0⟩, ⟨1⟩, ⟨1⟩, ⟨2⟩] ∧
      ∃ blk, doubling.block? ⟨1⟩ = some blk ∧ ∀ i ∈ blk.instrs, i.isPhi = true →
        ∃ v, i.incoming.filter (fun e => e.1 = ⟨1⟩) = [(⟨1⟩, v)] ∧
          ∃ d ∈ doubling.instrsOn [⟨0⟩, ⟨1⟩], d.result = some v := by
  have hf : doubling.defects = [] := by cbv
  have hw : doubling.graph.IsWalk ([⟨0⟩, ⟨1⟩] ++ ⟨1⟩ :: [⟨2⟩]) := ⟨⟨⟨0⟩, rfl, rfl⟩, by decide⟩
  obtain ⟨blk, hb, -, -, hphis⟩ := reads_available doubling hf _ _ _ hw
  refine ⟨hf, hw, blk, hb, fun i hi hphi => ?_⟩
  obtain ⟨v, hv, hparam | hd⟩ := hphis i hi hphi ⟨1⟩ rfl
  · cases hparam
  · exact ⟨v, hv, hd⟩

end Func

end BarrierLowering
