import BarrierLowering.Proofs.Split
import BarrierLowering.Region

/-!
# Runs of instructions in blocks of their own

Isolating a run of instructions takes two splits. After them the run is alone in a block that
is entered from one block and leads to one block. Later splits of other blocks keep it so.

## Main definitions

* `Home` — a block that holds nothing but a run of instructions.
* `Func.Isolated`, `Func.Apart` — the control flow around one home, and around several.

## Main results

* `Edit.apply_isolate` — isolating a run of instructions succeeds.
* `Func.Isolated.cut` — a home stays one when another block is split.
-/

namespace BarrierLowering

/-- A run of instructions in a block of its own, and the block in front of it. -/
structure Home where
  front : BlockId
  block : BlockId
  instrs : List Instr

namespace Func

variable {f g : Func} {b back : BlockId} {blk : Block} {index : Nat} {label : String} {h : Home}
  {hs : List Home}

/-- A home is entered from its front only, where control can go nowhere else, and leads to the
block `back`, which is entered from nowhere else and has no phi nodes. -/
structure Isolated (f : Func) (h : Home) (back : BlockId) : Prop where
  block : ∃ label, f.block? h.block = some ⟨h.block, label, h.instrs, .branch back⟩
  ahead : ∀ c, f.graph.Edge h.front c ↔ c = h.block
  entered : ∀ a, f.graph.Edge a h.block ↔ a = h.front
  left : ∀ a, f.graph.Edge a back ↔ a = h.block
  plain : ∀ blk, f.block? back = some blk → ∀ i ∈ blk.instrs, i.isPhi = false

/-- Several homes, none of which is the front of another. -/
structure Apart (f : Func) (hs : List Home) : Prop where
  isolated : ∀ h ∈ hs, ∃ back, f.Isolated h back
  nodup : (hs.map (·.block)).Nodup
  fronts : ∀ h ∈ hs, ∀ h' ∈ hs, h.front ≠ h'.block

/-! ### Homes and splits -/

theorem Isolated.mem_blockIds (h' : f.Isolated h back) : h.block ∈ f.blockIds := by
  obtain ⟨label, hblk⟩ := h'.block
  exact mem_blockIds_iff.2 ⟨_, hblk⟩

theorem Isolated.front_mem_blockIds (h' : f.Isolated h back) : h.front ∈ f.blockIds :=
  Graph.Edge.mem_nodes ((h'.entered h.front).2 rfl)

theorem Isolated.edge_back (h' : f.Isolated h back) : f.graph.Edge h.block back :=
  (h'.left h.block).2 rfl

/-- A home stays one when another block is split. -/
theorem Isolated.cut (h' : f.Isolated h back) (hcut : f.Cuttable b index blk) (hne : h.block ≠ b) :
    (f.cut b index label).Isolated h (if back = b then f.fresh else back) := by
  have hfresh : h.block ≠ f.fresh := fun heq => hcut.fresh_not_mem (heq ▸ h'.mem_blockIds)
  have hfront : h.front ≠ f.fresh := fun heq => hcut.fresh_not_mem (heq ▸ h'.front_mem_blockIds)
  have hback : back ≠ f.fresh := fun heq => hcut.not_edge_fresh (heq ▸ h'.edge_back)
  obtain ⟨name, hblk⟩ := h'.block
  refine ⟨⟨name, ?_⟩, fun c => ?_, fun a => ?_, fun a => ?_, fun new hnew => ?_⟩
  · rw [hcut.block?_of_ne hne hblk]
    rfl
  · rw [hcut.edge_iff hfront, h'.ahead, h'.ahead]
    split
    · next hc =>
      rw [hc]
      exact iff_of_false hne.symm hfresh.symm
    · exact ⟨fun h => h.2, fun hc => ⟨hc ▸ hne, hc⟩⟩
  · by_cases ha : a = f.fresh
    · rw [ha, hcut.edge_fresh]
      exact iff_of_false hne hfront.symm
    · rw [hcut.edge_iff ha, if_neg hfresh, and_iff_right hne, h'.entered]
  · by_cases ha : a = f.fresh
    · rw [ha, hcut.edge_fresh]
      refine iff_of_false ?_ hfresh.symm
      split
      · exact hcut.ne_fresh.symm
      · assumption
    · rw [hcut.edge_iff ha]
      by_cases hb : back = b
      · rw [if_pos hb, if_pos rfl, ← hb, h'.left]
      · rw [if_neg hb, if_neg hback, and_iff_right hb, h'.left]
  · by_cases hb : back = b
    · rw [if_pos hb, hcut.block?_fresh] at hnew
      cases hnew
      exact fun i hi => h'.plain blk (hb ▸ hcut.block) i (List.mem_of_mem_take hi)
    · obtain ⟨oldBlk, hold⟩ := mem_blockIds_iff.1
        (hcut.shaped.targets_exist _ (block?_mem hblk).1 back (List.mem_singleton.2 rfl))
      rw [if_neg hb, hcut.block?_of_ne hb hold] at hnew
      cases hnew
      exact h'.plain oldBlk hold

/-- Homes stay apart when a block that is none of them is split. -/
theorem Apart.cut (h' : f.Apart hs) (hcut : f.Cuttable b index blk) (hne : ∀ h ∈ hs, h.block ≠ b) :
    (f.cut b index label).Apart hs := by
  refine ⟨fun h hmem => ?_, h'.nodup, h'.fronts⟩
  obtain ⟨back, hback⟩ := h'.isolated h hmem
  exact ⟨_, hback.cut hcut (hne h hmem)⟩

/-! ### Isolating a run of instructions -/

/-- An instruction is located in the block that holds it. -/
theorem Numbered.locate?_eq (hn : f.Numbered) (hb : f.block? b = some blk) {is js : List Instr}
    {i : Instr} (hsplit : blk.instrs = is ++ i :: js) : f.locate? i.id = some (b, is.length) := by
  obtain ⟨hmem, rfl⟩ := block?_mem hb
  obtain ⟨l₁, l₂, hblocks⟩ := List.append_of_mem hmem
  have hnd := hn.instrs_nodup
  rw [instrs, hblocks, List.flatMap_append, List.flatMap_cons, hsplit, List.append_assoc,
    ← List.append_assoc, List.cons_append, List.map_append, List.map_cons, List.nodup_append] at hnd
  -- no instruction before this one has its identifier
  have hbefore : ∀ x ∈ l₁.flatMap (·.instrs) ++ is, x.id ≠ i.id := fun x hx =>
    hnd.2.2 x.id (List.mem_map_of_mem hx) i.id List.mem_cons_self
  rw [locate?, List.findSome?_eq_some_iff]
  refine ⟨l₁, blk, l₂, hblocks, ?_, fun x hx => ?_⟩
  · have hfind : blk.instrs.findIdx? (fun instr => instr.id = i.id) = some is.length := by
      have hnone : is.findIdx? (fun instr => instr.id = i.id) = none := by
        rw [List.findIdx?_eq_none_iff]
        intro x hx
        exact decide_eq_false (hbefore x (List.mem_append_right _ hx))
      rw [hsplit, List.findIdx?_append, hnone, List.findIdx?_cons]
      simp
    rw [hfind, Option.map_some]
  · rw [Option.map_eq_none_iff, List.findIdx?_eq_none_iff]
    intro y hy
    exact decide_eq_false (hbefore y (List.mem_append_left _ (List.mem_flatMap.2 ⟨x, hx, hy⟩)))

/-- A block can be split in front of an instruction that is no phi node. -/
theorem cuttable_before (hs : f.Shaped) (hn : f.Numbered) (hb : f.block? b = some blk)
    {is js : List Instr} {i : Instr} (hsplit : blk.instrs = is ++ i :: js) (hi : i.isPhi = false) :
    f.Cuttable b is.length blk := by
  refine ⟨⟨hs, hn.blocks_lt, hb, ?_, ?_⟩, hn⟩
  · rw [Block.phiCount, hsplit, List.takeWhile_append]
    split
    · next hlen =>
      rw [List.takeWhile_cons_of_neg (by rw [hi]; exact Bool.false_ne_true), List.append_nil]
    · exact (List.takeWhile_prefix _).length_le
  · rw [hsplit, List.length_append]
    exact Nat.le_add_right _ _

/-- A block without phi nodes can be split anywhere. -/
theorem cuttable_of_plain (hs : f.Shaped) (hn : f.Numbered) (hb : f.block? b = some blk)
    (hplain : ∀ i ∈ blk.instrs, i.isPhi = false) (hle : index ≤ blk.instrs.length) :
    f.Cuttable b index blk := by
  refine ⟨⟨hs, hn.blocks_lt, hb, ?_, hle⟩, hn⟩
  rw [Block.phiCount_eq_zero hplain]
  exact Nat.zero_le _

theorem fresh_cut : (f.cut b index label).fresh = ⟨f.next.block + 1⟩ := rfl

/-- Between two splits of a block there is a home. -/
theorem Cuttable.isolated {index' : Nat} {label' : String} {blk' : Block}
    (h₁ : f.Cuttable b index blk) (h₂ : (f.cut b index label).Cuttable b index' blk') :
    ((f.cut b index label).cut b index' label').Isolated
      ⟨f.fresh, (f.cut b index label).fresh, blk'.instrs.take index'⟩ b := by
  have hne : f.fresh ≠ (f.cut b index label).fresh := by
    rw [fresh_cut, fresh, Ne, BlockId.mk.injEq]
    exact (Nat.succ_ne_self _).symm
  -- only the first of the two new blocks leads to the old one in between
  have hedge : ∀ a, (f.cut b index label).graph.Edge a b ↔ a = f.fresh := by
    intro a
    by_cases ha : a = f.fresh
    · rw [ha, h₁.edge_fresh]
      exact iff_of_true rfl rfl
    · rw [h₁.edge_iff ha, if_neg h₁.ne_fresh]
      exact iff_of_false (fun h => h.1 rfl) ha
  refine ⟨⟨label', h₂.block?_fresh⟩, fun c => ?_, fun a => ?_, fun a => ?_, fun blk hblk => ?_⟩
  · rw [h₂.edge_iff hne, h₁.edge_fresh, h₁.edge_fresh]
    split
    · next hc => exact iff_of_true rfl hc
    · next hc => exact iff_of_false (fun h => h.1 h.2) hc
  · by_cases ha : a = (f.cut b index label).fresh
    · rw [ha, h₂.edge_fresh]
      exact iff_of_false h₂.ne_fresh.symm hne.symm
    · rw [h₂.edge_iff ha, if_pos rfl, hedge]
  · by_cases ha : a = (f.cut b index label).fresh
    · rw [ha, h₂.edge_fresh]
      exact iff_of_true rfl rfl
    · rw [h₂.edge_iff ha, if_neg h₂.ne_fresh]
      exact iff_of_false (fun h => h.1 rfl) ha
  · rw [h₂.block?_self] at hblk
    cases hblk
    exact fun i hi => h₂.not_phi hi

/-- The new home is apart from the homes of other blocks. -/
theorem Apart.snoc {index' : Nat} {blk' : Block} (label' : String) (h' : f.Apart hs)
    (hne : ∀ h ∈ hs, h.block ≠ b) (h₁ : f.Cuttable b index blk)
    (h₂ : (f.cut b index label).Cuttable b index' blk') :
    ((f.cut b index label).cut b index' label').Apart
      (hs ++ [⟨f.fresh, (f.cut b index label).fresh, blk'.instrs.take index'⟩]) := by
  have hcut : ((f.cut b index label).cut b index' label').Apart hs := (h'.cut h₁ hne).cut h₂ hne
  have hnew : f.fresh ∉ f.blockIds ∧ (f.cut b index label).fresh ∉ f.blockIds :=
    ⟨h₁.fresh_not_mem, fun hmem =>
      h₂.fresh_not_mem (h₁.blockIds_perm.mem_iff.2 (List.mem_cons_of_mem _ hmem))⟩
  have hold : ∀ h ∈ hs, h.front ∈ f.blockIds ∧ h.block ∈ f.blockIds := by
    intro h hmem
    obtain ⟨back, hback⟩ := h'.isolated h hmem
    exact ⟨hback.front_mem_blockIds, hback.mem_blockIds⟩
  refine ⟨fun h hmem => ?_, ?_, fun h hmem g hg => ?_⟩
  · rcases List.mem_append.1 hmem with hmem | hmem
    · exact hcut.isolated h hmem
    · rw [List.mem_singleton.1 hmem]
      exact ⟨b, h₁.isolated h₂⟩
  · rw [List.map_append, List.nodup_append]
    refine ⟨h'.nodup, List.nodup_singleton _, fun x hx y hy hxy => hnew.2 ?_⟩
    obtain ⟨h, hmem, rfl⟩ := List.mem_map.1 hx
    have heq : h.block = (f.cut b index label).fresh := hxy.trans (List.mem_singleton.1 hy)
    exact heq ▸ (hold h hmem).2
  · rcases List.mem_append.1 hmem with hmem | hmem <;> rcases List.mem_append.1 hg with hg | hg
    · exact h'.fronts h hmem g hg
    · rw [List.mem_singleton.1 hg]
      intro (heq : h.front = (f.cut b index label).fresh)
      exact hnew.2 (heq ▸ (hold h hmem).1)
    · rw [List.mem_singleton.1 hmem]
      intro (heq : f.fresh = g.block)
      exact hnew.1 (heq ▸ (hold g hg).2)
    · rw [List.mem_singleton.1 hmem, List.mem_singleton.1 hg, fresh_cut, fresh, Ne,
        BlockId.mk.injEq]
      exact (Nat.succ_ne_self _).symm

end Func

open Func in
/-- Isolating a run of instructions that starts with no phi node takes two splits. -/
theorem Edit.apply_isolate {f : Func} {b : BlockId} {blk : Block} {pre ys post : List Instr}
    {x y : Instr} (label : String) (hshape : f.Shaped) (hn : f.Numbered)
    (hb : f.block? b = some blk) (hsplit : blk.instrs = pre ++ (ys ++ y :: post))
    (hx : (ys ++ [y]).head? = some x) (hphi : x.isPhi = false) :
    ∃ label' blk', f.Cuttable b pre.length blk ∧
      (f.cut b pre.length label').Cuttable b (ys.length + 1) blk' ∧
      blk'.instrs.take (ys.length + 1) = ys ++ [y] ∧
      (isolate x.id y.id label).apply f =
        (.ok (f.cut b pre.length label').fresh,
          (f.cut b pre.length label').cut b (ys.length + 1) label) := by
  obtain ⟨rest, hrest⟩ : ∃ rest, ys ++ y :: post = x :: rest := by
    obtain ⟨tail, htail⟩ := List.head?_eq_some_iff.1 hx
    exact ⟨tail ++ post, by rw [List.append_cons, htail, List.cons_append]⟩
  have h₁ := cuttable_before hshape hn hb (hrest ▸ hsplit) hphi
  have hb₁ : (f.cut b pre.length (blk.label ++ ".split")).block? b = some { blk with
      instrs := ys ++ y :: post
      term := blk.term.retarget b f.fresh } := by
    rw [h₁.block?_self, hsplit, List.drop_left]
  -- what is left of the block has no phi nodes
  have h₂ : (f.cut b pre.length (blk.label ++ ".split")).Cuttable b (ys.length + 1) { blk with
      instrs := ys ++ y :: post
      term := blk.term.retarget b f.fresh } := by
    refine cuttable_of_plain h₁.shaped_cut h₁.numbered_cut hb₁ (fun i hi => h₁.not_phi ?_) ?_
    · rwa [hsplit, List.drop_left]
    · rw [List.length_append, List.length_cons]
      omega
  refine ⟨_, _, h₁, h₂, ?_, ?_⟩
  · show (ys ++ y :: post).take (ys.length + 1) = ys ++ [y]
    rw [List.append_cons]
    exact List.take_left' (by rw [List.length_append, List.length_singleton])
  · unfold isolate split
    simp only [apply_bind, apply_require, hn.locate?_eq hb (hrest ▸ hsplit), hb,
      h₁.apply]
    rw [h₁.numbered_cut.locate?_eq hb₁ rfl]
    exact h₂.apply

end BarrierLowering
