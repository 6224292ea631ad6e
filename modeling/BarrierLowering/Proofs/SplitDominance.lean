import BarrierLowering.Proofs.Split
import BarrierLowering.Proofs.Verifier

/-!
# Dominance before and after a split

A walk after a split takes the new block whenever it takes the old one, just before it. So the
blocks from before are reached as before and dominate each other as before, and the new block
dominates what the old one dominated. Nothing else is needed for the check of a function, and a
split that is not allowed does not touch the function.

## Main results

* `Func.Splittable.fresh_mem_walk_iff` — a walk takes the new block if it takes the old one.
* `Func.Splittable.dominators_cut`, `Func.Splittable.dominators_cut_fresh` — the dominators after a
  split.
* `Edit.apply_splitLabeled_of_lt`, `Edit.apply_splitLabeled_of_lt_phiCount` — the splits that fail.
* `Edit.splitLabeled_dominance` — a split preserves the check and the dominators.
-/

namespace BarrierLowering

namespace Func.Splittable

variable {f : Func} {b a x : BlockId} {index : Nat} {blk : Block} {label : String}
  {w : List BlockId}

/-! ### Walks by way of the new block -/

/-- Control comes to the old block by way of the new one. -/
theorem exists_fresh_of_walk_self (h : f.Splittable b index blk)
    (hw : (f.cut b index label).graph.IsWalk (w ++ [b])) : ∃ w', w = w' ++ [f.fresh] := by
  rcases List.eq_nil_or_concat w with rfl | ⟨w, u, rfl⟩
  · -- the entry is not the old block any more
    obtain ⟨e, -, heq⟩ := Option.map_eq_some_iff.1
      (h.entryId?_eq.symm.trans (Graph.isWalk_singleton.1 hw))
    split at heq
    · exact absurd heq.symm h.ne_fresh
    · next hne => exact absurd heq hne
  · rw [List.concat_eq_append] at hw ⊢
    have hedge := (Graph.isWalk_snoc.1 hw).2
    by_cases hu : u = f.fresh
    · exact ⟨w, hu ▸ rfl⟩
    · rw [h.edge_iff hu, if_neg h.ne_fresh] at hedge
      exact absurd rfl hedge.1

/-- A walk to another block takes the new block if and only if it takes the old one. -/
theorem fresh_mem_walk_iff (h : f.Splittable b index blk) (hx : x ≠ f.fresh)
    (hw : (f.cut b index label).graph.IsWalk (w ++ [x])) :
    f.fresh ∈ w ++ [x] ↔ b ∈ w ++ [x] := by
  constructor
  · intro hmem
    obtain ⟨w₁, w₂, hsplit⟩ := List.append_of_mem hmem
    rw [hsplit] at hw ⊢
    cases w₂ with
    | nil => exact absurd (List.append_inj' hsplit rfl).2 (by simpa using hx)
    | cons y w₂ =>
      obtain rfl := h.edge_fresh.1 hw.edge
      simp
  · intro hmem
    obtain ⟨w₁, w₂, hsplit⟩ := List.append_of_mem hmem
    rw [hsplit] at hw ⊢
    obtain ⟨w', rfl⟩ := h.exists_fresh_of_walk_self hw.stop
    simp

/-! ### Reachable blocks and dominators -/

theorem mem_reachable_cut_iff (h : f.Splittable b index blk) (hx : x ≠ f.fresh) :
    x ∈ (f.cut b index label).graph.reachable ↔ x ∈ f.graph.reachable := by
  rw [mem_reachable_iff, mem_reachable_iff, h.blockIds_perm.mem_iff, List.mem_cons,
    or_iff_right hx]
  refine and_congr_left fun _ => ⟨fun ⟨w, hw⟩ => ?_, fun ⟨w, hw⟩ => ?_⟩
  · obtain ⟨w₀, hw₀, -⟩ := (h.walk_down w x hw).1 hx
    exact ⟨w₀, hw₀⟩
  · obtain ⟨w', hw', -⟩ := h.walk_up label w x hw
    exact ⟨w', hw'⟩

/-- The new block is reached if the old one was. -/
theorem fresh_mem_reachable_iff (h : f.Splittable b index blk) :
    f.fresh ∈ (f.cut b index label).graph.reachable ↔ b ∈ f.graph.reachable := by
  have hids : f.fresh ∈ (f.cut b index label).blockIds :=
    h.blockIds_perm.mem_iff.2 List.mem_cons_self
  rw [← h.mem_reachable_cut_iff h.ne_fresh, mem_reachable_iff, mem_reachable_iff,
    h.blockIds_perm.mem_iff (a := b), and_iff_left hids,
    and_iff_left (List.mem_cons_of_mem _ (mem_blockIds_iff.2 ⟨blk, h.block⟩))]
  constructor
  · rintro ⟨w, hw⟩
    exact ⟨w ++ [f.fresh], hw.snoc (h.edge_fresh.2 rfl)⟩
  · rintro ⟨w, hw⟩
    obtain ⟨w', rfl⟩ := h.exists_fresh_of_walk_self hw
    rw [List.append_assoc, List.singleton_append] at hw
    exact ⟨w', hw.stop⟩

theorem dominates_cut_iff (h : f.Splittable b index blk) (ha : a ≠ f.fresh) (hx : x ≠ f.fresh) :
    (f.cut b index label).graph.Dominates a x ↔ f.graph.Dominates a x := by
  constructor
  · intro hdom w hw
    obtain ⟨w', hw', rfl, -⟩ := h.walk_up label w x hw
    rcases List.mem_append.1 (hdom w' hw') with hmem | hmem
    · exact List.mem_append_left _ (List.mem_filter.2 ⟨hmem, by simpa using ha⟩)
    · exact List.mem_append_right _ hmem
  · intro hdom w hw
    obtain ⟨w₀, hw₀, rfl, -⟩ := (h.walk_down w x hw).1 hx
    rcases List.mem_append.1 (hdom _ hw₀) with hmem | hmem
    · exact List.mem_append_left _ (List.mem_filter.1 hmem).1
    · exact List.mem_append_right _ hmem

/-- The new block dominates what the old one dominated. -/
theorem fresh_dominates_iff (h : f.Splittable b index blk) (hx : x ≠ f.fresh) :
    (f.cut b index label).graph.Dominates f.fresh x ↔ f.graph.Dominates b x := by
  have hold : (f.cut b index label).graph.Dominates b x ↔ f.graph.Dominates b x :=
    h.dominates_cut_iff h.ne_fresh hx
  rw [← hold]
  exact forall₂_congr fun w hw => h.fresh_mem_walk_iff hx hw

theorem isReachable_cut (h : f.Splittable b index blk) (hx : x ≠ f.fresh) :
    (f.cut b index label).dominators.isReachable x = f.dominators.isReachable x := by
  rw [Bool.eq_iff_iff, dominators, dominators, Graph.isReachable_dominators,
    Graph.isReachable_dominators, h.mem_reachable_cut_iff hx]

theorem isReachable_cut_fresh (h : f.Splittable b index blk) :
    (f.cut b index label).dominators.isReachable f.fresh = f.dominators.isReachable b := by
  rw [Bool.eq_iff_iff, dominators, dominators, Graph.isReachable_dominators,
    Graph.isReachable_dominators, h.fresh_mem_reachable_iff]

theorem dominators_cut (h : f.Splittable b index blk) (ha : a ≠ f.fresh) (hx : x ≠ f.fresh) :
    (f.cut b index label).dominators.dominates a x = f.dominators.dominates a x := by
  rw [Bool.eq_iff_iff, dominators, dominators, Graph.dominates_dominators_iff,
    Graph.dominates_dominators_iff, h.mem_reachable_cut_iff hx, h.dominates_cut_iff ha hx]

theorem dominators_cut_fresh (h : f.Splittable b index blk) (hx : x ≠ f.fresh) :
    (f.cut b index label).dominators.dominates f.fresh x = f.dominators.dominates b x := by
  rw [Bool.eq_iff_iff, dominators, dominators, Graph.dominates_dominators_iff,
    Graph.dominates_dominators_iff, h.mem_reachable_cut_iff hx, h.fresh_dominates_iff hx]

end Func.Splittable

namespace Edit

variable {f : Func} {b : BlockId} {blk : Block} {index : Nat} {label : String}

/-! ### Splits that fail -/

/-- A split behind the end of a block fails, and changes nothing. -/
theorem apply_splitLabeled_of_lt (hb : f.block? b = some blk) (hlt : blk.instrs.length < index) :
    (splitLabeled b index label).apply f =
      (.error (.splitOutOfRange b index blk.instrs.length), f) := by
  unfold splitLabeled
  rw [apply_bind, apply_require, hb]
  dsimp only
  rw [if_pos hlt]
  rfl

/-- A split among the phi nodes fails, and changes nothing. -/
theorem apply_splitLabeled_of_lt_phiCount (hb : f.block? b = some blk)
    (hlt : index < blk.phiCount) :
    (splitLabeled b index label).apply f = (.error (.splitInPhis b index), f) := by
  have hle : blk.phiCount ≤ blk.instrs.length := (List.takeWhile_sublist _).length_le
  unfold splitLabeled
  rw [apply_bind, apply_require, hb]
  dsimp only
  rw [if_neg (by omega), if_pos hlt]
  rfl

/-! ### Splits that succeed -/

/-- **Splitting preserves the check and the dominators.** A split of a function without defects
fails exactly if the cut is behind the end of the block or among its phi nodes, and then it changes
nothing. Otherwise the function has no defects afterwards, the blocks from before are reached and
dominate each other as before, and the new block dominates what the old one dominated. -/
theorem splitLabeled_dominance (f : Func) (blk : Block) (index : Nat) (label : String)
    (hf : f.defects = []) (hblocks : ∀ x ∈ f.blockIds, x.index < f.next.block)
    (hblk : blk ∈ f.blocks) :
    ((∃ cause, (splitLabeled blk.id index label).apply f = (.error cause, f)) ↔
      blk.instrs.length < index ∨ index < blk.phiCount) ∧
    (blk.phiCount ≤ index → index ≤ blk.instrs.length →
      ∃ n g, (splitLabeled blk.id index label).apply f = (.ok n, g) ∧ g.defects = [] ∧
        n ∉ f.blockIds ∧ g.blockIds.Perm (n :: f.blockIds) ∧
        g.dominators.isReachable n = f.dominators.isReachable blk.id ∧
        ∀ b ∈ f.blockIds, g.dominators.isReachable b = f.dominators.isReachable b ∧
          g.dominators.dominates n b = f.dominators.dominates blk.id b ∧
          ∀ a ∈ f.blockIds, g.dominators.dominates a b = f.dominators.dominates a b) := by
  have hwf := Func.defects_eq_nil_iff.1 hf
  have hb := Func.block?_id hwf.blocks_nodup hblk
  have hok : blk.phiCount ≤ index → index ≤ blk.instrs.length →
      f.Splittable blk.id index blk := fun hphis hlen => ⟨hwf.toShaped, hblocks, hb, hphis, hlen⟩
  refine ⟨⟨fun ⟨cause, hfail⟩ => ?_, ?_⟩, fun hphis hlen => ?_⟩
  · by_contra hnot
    rw [(hok (by omega) (by omega)).apply] at hfail
    cases hfail
  · rintro (hlt | hlt)
    · exact ⟨_, apply_splitLabeled_of_lt hb hlt⟩
    · exact ⟨_, apply_splitLabeled_of_lt_phiCount hb hlt⟩
  · have h := hok hphis hlen
    have hne : ∀ {x}, x ∈ f.blockIds → x ≠ f.fresh := fun hx heq => h.fresh_not_mem (heq ▸ hx)
    exact ⟨f.fresh, f.cut blk.id index label, h.apply,
      Func.defects_eq_nil_iff.2 (h.wellFormed_cut hwf), h.fresh_not_mem, h.blockIds_perm,
      h.isReachable_cut_fresh, fun b hb => ⟨h.isReachable_cut (hne hb),
        h.dominators_cut_fresh (hne hb), fun a ha => h.dominators_cut (hne ha) (hne hb)⟩⟩

/-- The loop is split behind its phi node. The new block dominates the loop and what comes behind
it, and not the entry. -/
theorem splitLabeled_dominance_doubling :
    Func.doubling.defects = [] ∧
      (∀ x ∈ Func.doubling.blockIds, x.index < Func.doubling.next.block) ∧
    (∃ cause, (splitLabeled ⟨1⟩ 0 "head").apply Func.doubling = (.error cause, Func.doubling)) ∧
    ∃ n g, (splitLabeled ⟨1⟩ 1 "head").apply Func.doubling = (.ok n, g) ∧ g.defects = [] ∧
      g.dominators.dominates n ⟨0⟩ = false ∧ g.dominators.dominates n ⟨1⟩ = true ∧
      g.dominators.dominates n ⟨2⟩ = true ∧ g.dominators.dominates ⟨2⟩ ⟨1⟩ = false := by
  have hf : Func.doubling.defects = [] := by cbv
  have hblocks : ∀ x ∈ Func.doubling.blockIds, x.index < Func.doubling.next.block := by decide
  have hsplit := fun index => splitLabeled_dominance Func.doubling _ index "head" hf hblocks
    (List.mem_cons_of_mem _ List.mem_cons_self)
  obtain ⟨n, g, happly, hg, -, -, -, hdom⟩ := (hsplit 1).2 (by decide) (by decide)
  have hids : ∀ i < 3, (⟨i⟩ : BlockId) ∈ Func.doubling.blockIds := by decide
  refine ⟨hf, hblocks, (hsplit 0).1.2 (.inr (by decide)), n, g, happly, hg, ?_, ?_, ?_, ?_⟩
  · exact (hdom ⟨0⟩ (hids 0 (by decide))).2.1.trans (by cbv)
  · exact (hdom ⟨1⟩ (hids 1 (by decide))).2.1.trans (by cbv)
  · exact (hdom ⟨2⟩ (hids 2 (by decide))).2.1.trans (by cbv)
  · exact ((hdom ⟨1⟩ (hids 1 (by decide))).2.2 ⟨2⟩ (hids 2 (by decide))).trans (by cbv)

end Edit

end BarrierLowering
