import BarrierLowering.Proofs.Split
import BarrierLowering.Proofs.Verifier
import Mathlib.Data.Set.Function

/-!
# Executions before and after a split

Where a walk took the block before a split, it takes the new block and the old one after it.
Leaving the new block out of a walk undoes this, so that the walks before and after are the
same up to that. No phi node is edited: the new block, which control now comes to, takes the phi
nodes, and the old block, which control still comes from, keeps its name.

## Main definitions

* `Instr.selected`, `Execution` — an instruction as a walk executes it.
* `Func.executions` — what a walk executes.
* `Func.spliced` — a walk after the split that does what a walk did before.

## Main results

* `Func.Splittable.spliced_filter`, `Func.Splittable.bijOn` — the walks before and after.
* `Func.Splittable.executions_spliced` — the same instructions are executed.
* `Edit.splitLabeled_walks` — a split preserves executions.
-/

namespace BarrierLowering

/-! ### What a walk executes -/

/-- The value that a phi node selects when control comes from `source`. -/
def Instr.selected (i : Instr) (source : Option BlockId) : Option ValueId :=
  (i.incoming.find? fun e => some e.1 = source).map (·.2)

/-- An instruction as a walk executes it. -/
structure Execution where
  instr : Instr
  /-- For a phi node, the block that control came from. -/
  source : Option BlockId
  /-- For a phi node, the value that it selects. -/
  selected : Option ValueId
  deriving DecidableEq

/-- The execution of an instruction in a block that was entered from `source`. -/
def Instr.executed (source : Option BlockId) (i : Instr) : Execution :=
  if i.isPhi then ⟨i, source, i.selected source⟩ else ⟨i, none, none⟩

/-- Only phi nodes care where control came from. -/
theorem Instr.executed_of_not_phi {i : Instr} {source source' : Option BlockId}
    (h : i.isPhi = false) : i.executed source = i.executed source' := by
  rw [executed, executed, h]
  rfl

@[simp] theorem Instr.instr_executed {i : Instr} {source : Option BlockId} :
    (i.executed source).instr = i := by
  unfold executed
  split <;> rfl

namespace Func

/-- What is executed on a walk that comes from `source`. -/
def executionsFrom (f : Func) : Option BlockId → List BlockId → List Execution
  | _, [] => []
  | source, b :: w => (f.instrsOf b).map (Instr.executed source) ++ f.executionsFrom (some b) w

/-- What a walk from the entry executes. -/
def executions (f : Func) (w : List BlockId) : List Execution := f.executionsFrom none w

/-- A walk executes the instructions that it runs. -/
theorem map_instr_executionsFrom (f : Func) (source : Option BlockId) (w : List BlockId) :
    (f.executionsFrom source w).map (·.instr) = f.instrsOn w := by
  induction w generalizing source with
  | nil => rfl
  | cons b w ih =>
    rw [executionsFrom, List.map_append, ih, instrsOn_cons, List.map_map]
    congr 1
    exact (List.map_congr_left fun _ _ => Instr.instr_executed).trans (List.map_id _)

/-- The walk that takes the new block in front of `b`. -/
def spliced (f : Func) (b : BlockId) (w : List BlockId) : List BlockId :=
  w.flatMap fun x => if x = b then [f.fresh, b] else [x]

end Func

/-! ### The walks before and after -/

namespace Func.Splittable

variable {f : Func} {b x : BlockId} {index : Nat} {blk : Block} {label : String}
  {w : List BlockId}

/-- The walks from before do not visit the new block. -/
theorem fresh_not_mem_walk (h : f.Splittable b index blk) (hw : f.graph.IsWalk w) :
    f.fresh ∉ w := by
  intro hmem
  obtain ⟨w₁, w₂, rfl⟩ := List.append_of_mem hmem
  exact h.fresh_not_mem (mem_blockIds_of_isWalk h.shaped.targets_exist hw.stop)

/-- A walk after the split takes `b` behind the new block and nowhere else. -/
theorem spliced_filter (h : f.Splittable b index blk) :
    ∀ w x, (f.cut b index label).graph.IsWalk (w ++ [x]) →
      f.spliced b ((w ++ [x]).filter (· ≠ f.fresh)) = if x = f.fresh then w else w ++ [x] := by
  refine Graph.IsWalk.snocInduction (fun e he => ?_) fun w u v _ huv ih => ?_
  · obtain ⟨e₀, -, rfl⟩ := Option.map_eq_some_iff.1 (h.entryId?_eq.symm.trans he)
    by_cases heb : e₀ = b
    · simp [heb, spliced]
    · by_cases hfresh : e₀ = f.fresh <;> simp [heb, hfresh, spliced, h.ne_fresh.symm]
  · rw [List.filter_append, spliced, List.flatMap_append, ← spliced, ih]
    by_cases hu : u = f.fresh
    · -- the new block leads nowhere but to the old one
      obtain rfl := h.edge_fresh.1 (hu ▸ huv)
      simp [hu, h.ne_fresh]
    · rw [h.edge_iff hu] at huv
      by_cases hv : v = f.fresh
      · simp [hu, hv]
      · rw [if_neg hv] at huv
        simp [hu, hv, huv.1]

/-- Leaving out the new block is a bijection from the walks that do not end there. -/
theorem bijOn (h : f.Splittable b index blk) (label : String) :
    Set.BijOn (fun w => w.filter (· ≠ f.fresh))
      {w | (f.cut b index label).graph.IsWalk w ∧ w.getLast? ≠ some f.fresh}
      {w | f.graph.IsWalk w} := by
  have hfilter : ∀ {w x}, x ≠ f.fresh →
      (w ++ [x]).filter (· ≠ f.fresh) = w.filter (· ≠ f.fresh) ++ [x] := fun hx => by
    rw [List.filter_append, List.filter_cons_of_pos (by simpa using hx), List.filter_nil]
  have hsnoc : ∀ {w}, (f.cut b index label).graph.IsWalk w ∧ w.getLast? ≠ some f.fresh →
      ∃ w' x, w = w' ++ [x] ∧ x ≠ f.fresh ∧ (f.cut b index label).graph.IsWalk (w' ++ [x]) := by
    rintro w ⟨hw, hlast⟩
    obtain ⟨w, x, rfl⟩ := hw.exists_snoc
    exact ⟨w, x, rfl, fun hx => hlast (by rw [hx, List.getLast?_concat]), hw⟩
  refine ⟨fun w hw => ?_, fun w hw w' hw' heq => ?_, fun w hw => ?_⟩
  · obtain ⟨w, x, rfl, hx, hwalk⟩ := hsnoc hw
    obtain ⟨w₀, hw₀, rfl, -⟩ := (h.walk_down w x hwalk).1 hx
    show f.graph.IsWalk ((w ++ [x]).filter (· ≠ f.fresh))
    rwa [hfilter hx]
  · obtain ⟨w, x, rfl, hx, hwalk⟩ := hsnoc hw
    obtain ⟨w', x', rfl, hx', hwalk'⟩ := hsnoc hw'
    have hleft := h.spliced_filter w x hwalk
    have hright := h.spliced_filter w' x' hwalk'
    rw [if_neg hx] at hleft
    rw [if_neg hx'] at hright
    rw [← hleft, ← hright]
    exact congrArg (f.spliced b) heq
  · have hfresh := h.fresh_not_mem_walk hw
    obtain ⟨w, x, rfl⟩ := Graph.IsWalk.exists_snoc hw
    have hx : x ≠ f.fresh := fun heq => hfresh (heq ▸ List.mem_append_right w List.mem_cons_self)
    obtain ⟨w', hw', rfl, -⟩ := h.walk_up label w x hw
    refine ⟨w' ++ [x], ⟨hw', ?_⟩, hfilter hx⟩
    rw [List.getLast?_concat]
    exact fun heq => hx (Option.some.inj heq)

/-! ### Executions before and after -/

theorem instrsOf_fresh (h : f.Splittable b index blk) :
    (f.cut b index label).instrsOf f.fresh = blk.instrs.take index :=
  instrsOf_of_block? h.block?_fresh

theorem instrsOf_self (h : f.Splittable b index blk) :
    (f.cut b index label).instrsOf b = blk.instrs.drop index :=
  instrsOf_of_block? h.block?_self

theorem instrsOf_of_ne (h : f.Splittable b index blk) (hx : x ≠ b) (hmem : x ∈ f.blockIds) :
    (f.cut b index label).instrsOf x = f.instrsOf x := by
  obtain ⟨xblk, hxblk⟩ := mem_blockIds_iff.1 hmem
  rw [instrsOf_of_block? (h.block?_of_ne hx hxblk), instrsOf_of_block? hxblk]

/-- Behind the new block, the same instructions are executed as before. -/
theorem executions_spliced (h : f.Splittable b index blk) (source : Option BlockId)
    (hw : ∀ x ∈ w, x ∈ f.blockIds) :
    (f.cut b index label).executionsFrom source (f.spliced b w) = f.executionsFrom source w := by
  induction w generalizing source with
  | nil => rfl
  | cons x w ih =>
    obtain ⟨hx, hw⟩ := List.forall_mem_cons.1 hw
    rw [spliced, List.flatMap_cons, ← spliced]
    by_cases hxb : x = b
    · subst hxb
      -- the phi nodes went to the new block, which control came to from the same source
      have hrest : (blk.instrs.drop index).map (Instr.executed (some f.fresh)) =
          (blk.instrs.drop index).map (Instr.executed source) :=
        List.map_congr_left fun i hi => Instr.executed_of_not_phi (h.not_phi hi)
      rw [if_pos rfl]
      show _ ++ (_ ++ (f.cut x index label).executionsFrom (some x) (f.spliced x w)) = _
      rw [ih (some x) hw, h.instrsOf_fresh, h.instrsOf_self, hrest, ← List.append_assoc,
        ← List.map_append, List.take_append_drop, executionsFrom, instrsOf_of_block? h.block]
    · rw [if_neg hxb]
      show _ ++ (f.cut b index label).executionsFrom (some x) (f.spliced b w) = _
      rw [ih (some x) hw, h.instrsOf_of_ne hxb hx, executionsFrom]

/-- A walk after the split executes what it executed before, without the new block. -/
theorem executions_filter (h : f.Splittable b index blk)
    (hw : (f.cut b index label).graph.IsWalk w) (hlast : w.getLast? ≠ some f.fresh) :
    (f.cut b index label).executions w = f.executions (w.filter (· ≠ f.fresh)) := by
  have hwalk : f.graph.IsWalk (w.filter (· ≠ f.fresh)) := (h.bijOn label).mapsTo ⟨hw, hlast⟩
  obtain ⟨w, x, rfl⟩ := hw.exists_snoc
  have hx : x ≠ f.fresh := fun heq => hlast (by rw [heq, List.getLast?_concat])
  have hspliced := h.spliced_filter w x hw
  rw [if_neg hx] at hspliced
  have hids : ∀ y ∈ (w ++ [x]).filter (· ≠ f.fresh), y ∈ f.blockIds := fun y hy => by
    obtain ⟨w₁, w₂, hsplit⟩ := List.append_of_mem hy
    rw [hsplit] at hwalk
    exact mem_blockIds_of_isWalk h.shaped.targets_exist hwalk.stop
  rw [executions, executions, ← h.executions_spliced none hids, hspliced]

end Func.Splittable

namespace Edit

/-- **Splitting preserves executions.** A block of a well-formed function can be split anywhere
behind its phi nodes. Leaving out the new block `n` is then a bijection from the walks that do not
end in it to the walks from before. Such a walk runs the same instructions, and each phi node
selects the same value, because control comes to it from the same block. -/
theorem splitLabeled_walks (f : Func) (blk : Block) (index : Nat) (label : String)
    (hf : f.defects = []) (hbounded : f.Bounded) (hblk : blk ∈ f.blocks)
    (hphis : blk.phiCount ≤ index) (hlen : index ≤ blk.instrs.length) :
    ∃ n g, (splitLabeled blk.id index label).apply f = (.ok n, g) ∧
      Set.BijOn (fun w => w.filter (· ≠ n)) {w | g.graph.IsWalk w ∧ w.getLast? ≠ some n}
        {w | f.graph.IsWalk w} ∧
      ∀ w, g.graph.IsWalk w → w.getLast? ≠ some n →
        g.instrsOn w = f.instrsOn (w.filter (· ≠ n)) ∧
          g.executions w = f.executions (w.filter (· ≠ n)) := by
  have hshape : f.Shaped := (Func.defects_eq_nil_iff.1 hf).toShaped
  have h : f.Splittable blk.id index blk :=
    ⟨hshape, hbounded.blocks_lt, Func.block?_id hshape.blocks_nodup hblk, hphis, hlen⟩
  refine ⟨f.fresh, f.cut blk.id index label, h.apply, h.bijOn label, fun w hw hlast => ?_⟩
  have hsame := h.executions_filter hw hlast
  refine ⟨?_, hsame⟩
  rw [← Func.map_instr_executionsFrom _ none, ← Func.map_instr_executionsFrom _ none]
  exact congrArg (List.map (·.instr)) hsame

/-- Each time control comes to the loop, from the entry or from the loop itself, it takes the new
block first, and the phi node there selects as before. -/
theorem splitLabeled_walks_doubling :
    Func.doubling.defects = [] ∧ Func.doubling.Bounded ∧
      ∃ g, (splitLabeled ⟨1⟩ 2 "head").apply Func.doubling = (.ok ⟨3⟩, g) ∧
        g.graph.IsWalk [⟨0⟩, ⟨3⟩, ⟨1⟩, ⟨3⟩, ⟨1⟩, ⟨2⟩] ∧
        g.executions [⟨0⟩, ⟨3⟩, ⟨1⟩, ⟨3⟩, ⟨1⟩, ⟨2⟩] =
          Func.doubling.executions [⟨0⟩, ⟨1⟩, ⟨1⟩, ⟨2⟩] := by
  have hf : Func.doubling.defects = [] := by cbv
  have hbounded : Func.doubling.Bounded := ⟨by decide, by decide, by decide, by decide⟩
  obtain ⟨n, g, happly, -, hsame⟩ := splitLabeled_walks Func.doubling _ 2 "head" hf hbounded
    (List.mem_cons_of_mem _ List.mem_cons_self) (by decide) (by decide)
  have hcut : (splitLabeled ⟨1⟩ 2 "head").apply Func.doubling =
      (.ok ⟨3⟩, Func.doubling.cut ⟨1⟩ 2 "head") := by cbv
  obtain ⟨hn, rfl⟩ := Prod.mk.inj (happly.symm.trans hcut)
  obtain rfl : n = ⟨3⟩ := Except.ok.inj hn
  have hw : (Func.doubling.cut ⟨1⟩ 2 "head").graph.IsWalk [⟨0⟩, ⟨3⟩, ⟨1⟩, ⟨3⟩, ⟨1⟩, ⟨2⟩] :=
    ⟨⟨⟨0⟩, rfl, rfl⟩, by decide⟩
  exact ⟨hf, hbounded, _, hcut, hw, (hsame _ hw (by decide)).2⟩

end Edit

end BarrierLowering
