import BarrierLowering.Emit
import BarrierLowering.Proofs.WellFormed
import Mathlib.Data.List.Perm.Basic

/-!
# Functions with other blocks

Every edit of the lowering leaves most of a function as it is, and puts a few blocks in the
place of one block. Written as one expansion of all blocks, edits in a row compose.

## Main definitions

* `Func.expand` — put other blocks in the place of each block.
* `Func.Bounded`, `Func.Numbered` — all identifiers in use are below the counters.

## Main results

* `Func.mapBlock_expand`, `Func.expand_expand` — edits of an expanded function.
-/

namespace BarrierLowering

/-! ### Edits of a list with distinct keys -/

section Lists

variable {α β : Type} {key : α → β} {k : β} {l : List α}

/-- A change of the first match is a change of every match, if all matches have one key. -/
theorem mapFirst_eq_map {p : α → Bool} (change : α → α) (hnd : (l.map key).Nodup)
    (hp : ∀ a ∈ l, p a = true → key a = k) :
    mapFirst p change l = l.map fun a => if p a then change a else a := by
  induction l with
  | nil => rfl
  | cons a l ih =>
    rw [List.map_cons, List.nodup_cons] at hnd
    rw [mapFirst, List.map_cons]
    split
    · next ha =>
      -- nothing after the first match has the key again
      have hrest : l.map (fun a => if p a then change a else a) = l := by
        refine (List.map_congr_left fun x hx => ?_).trans (List.map_id l)
        rw [if_neg fun hpx : p x = true => hnd.1 ?_, id]
        rw [hp a List.mem_cons_self ha, ← hp x (List.mem_cons_of_mem _ hx) hpx]
        exact List.mem_map_of_mem hx
      rw [hrest]
    · rw [ih hnd.2 fun x hx => hp x (List.mem_cons_of_mem _ hx)]

/-- What is put in front of a key is put somewhere once. -/
theorem flatMap_insert_eq_singleton {γ : Type} [DecidableEq β] (n : γ) (hnd : (l.map key).Nodup)
    (hk : k ∈ l.map key) : (l.flatMap fun a => if key a = k then [n] else []) = [n] := by
  obtain ⟨a, ha, rfl⟩ := List.mem_map.1 hk
  obtain ⟨l₁, l₂, rfl⟩ := List.append_of_mem ha
  rw [List.map_append, List.map_cons, List.nodup_append, List.nodup_cons] at hnd
  obtain ⟨-, ⟨hright, -⟩, hleft⟩ := hnd
  have h₁ : (l₁.flatMap fun x => if key x = key a then [n] else []) = [] := by
    rw [List.flatMap_eq_nil_iff]
    intro x hx
    exact if_neg (hleft (key x) (List.mem_map_of_mem hx) (key a) List.mem_cons_self)
  have h₂ : (l₂.flatMap fun x => if key x = key a then [n] else []) = [] := by
    rw [List.flatMap_eq_nil_iff]
    intro x hx
    exact if_neg fun heq : key x = key a => hright (heq ▸ List.mem_map_of_mem hx)
  rw [List.flatMap_append, List.flatMap_cons, h₁, h₂, if_pos rfl, List.append_nil, List.nil_append]

/-- A new key in front of a key makes the list of keys longer by it. -/
theorem flatMap_insert_perm [DecidableEq β] {n : β} (hnd : (l.map key).Nodup)
    (hk : k ∈ l.map key) :
    (l.flatMap fun a => (if key a = k then [n] else []) ++ [key a]).Perm (n :: l.map key) := by
  refine (List.flatMap_append_perm l _ _).symm.trans (List.Perm.of_eq ?_)
  rw [flatMap_insert_eq_singleton n hnd hk, ← List.map_eq_flatMap, List.singleton_append]

/-- What is sorted by the keys of a list is there once, if each key is there once. -/
theorem flatMap_filter_perm {γ : Type} [DecidableEq β] {k : γ → β} {ws : List γ}
    (hnd : (l.map key).Nodup) (hk : ∀ w ∈ ws, k w ∈ l.map key) :
    (l.flatMap fun a => ws.filter fun w => k w = key a).Perm ws := by
  induction ws with
  | nil => simp
  | cons w ws ih =>
    have hcons : (l.flatMap fun a => (w :: ws).filter fun w => k w = key a) =
        l.flatMap fun a => (if key a = k w then [w] else []) ++ ws.filter fun w => k w = key a := by
      refine List.flatMap_congr fun a _ => ?_
      rw [List.filter_cons]
      by_cases ha : k w = key a
      · rw [if_pos (decide_eq_true ha), if_pos ha.symm, List.singleton_append]
      · rw [if_neg (by simpa using ha), if_neg (Ne.symm ha), List.nil_append]
    rw [hcons]
    refine (List.flatMap_append_perm _ _ _).symm.trans ?_
    rw [flatMap_insert_eq_singleton w hnd (hk w List.mem_cons_self), List.singleton_append]
    exact (ih fun w hw => hk w (List.mem_cons_of_mem _ hw)).cons _

end Lists

/-- Cutting a block is a change of every block of its identifier, if there is one at most. -/
theorem cutBlock_eq_flatMap {b fresh : BlockId} {index : Nat} {label : String} {l : List Block}
    (hnd : (l.map (·.id)).Nodup) : cutBlock b index fresh label l = l.flatMap fun blk =>
      if blk.id = b then
        [⟨fresh, label, blk.instrs.take index, .branch b⟩,
          { blk with instrs := blk.instrs.drop index }]
      else [blk] := by
  induction l with
  | nil => rfl
  | cons blk l ih =>
    rw [List.map_cons, List.nodup_cons] at hnd
    rw [cutBlock, List.flatMap_cons]
    by_cases hb : blk.id = b
    · have hrest : (l.flatMap fun blk =>
          if blk.id = b then
            [⟨fresh, label, blk.instrs.take index, .branch b⟩,
              { blk with instrs := blk.instrs.drop index }]
          else [blk]) = l := by
        refine (List.flatMap_congr fun x hx => ?_).trans (List.flatMap_singleton' l)
        rw [if_neg fun hxb : x.id = b => hnd.1 (hb ▸ hxb ▸ List.mem_map_of_mem hx)]
      rw [if_pos hb, if_pos hb, hrest]
      rfl
    · rw [if_neg hb, if_neg hb, ih hnd.2]
      rfl

namespace Func

variable {f : Func} {b : BlockId} {blk blk' : Block} {e e' : Block → List Block}
  {next next' : Counters} {v : ValueId}

/-! ### Expansions -/

/-- Put other blocks in the place of each block, and set the counters. -/
def expand (f : Func) (e : Block → List Block) (next : Counters) : Func :=
  { f with blocks := f.blocks.flatMap e, next }

@[simp] theorem expand_next : (f.expand e next).next = next := rfl

theorem expand_blocks : (f.expand e next).blocks = f.blocks.flatMap e := rfl

/-- A function is an expansion of itself. -/
theorem expand_self (f : Func) : f.expand (fun blk => [blk]) f.next = f := by
  rw [expand, List.flatMap_singleton']

theorem expand_expand : (f.expand e next).expand e' next' =
    f.expand (fun blk => (e blk).flatMap e') next' := by
  rw [expand, expand, expand, List.flatMap_assoc]

theorem expand_congr (h : ∀ blk ∈ f.blocks, e blk = e' blk) :
    f.expand e next = f.expand e' next := by
  rw [expand, expand, List.flatMap_congr h]

theorem mem_expand_blocks : blk' ∈ (f.expand e next).blocks ↔ ∃ blk ∈ f.blocks, blk' ∈ e blk :=
  List.mem_flatMap

theorem blockIds_expand :
    (f.expand e next).blockIds = f.blocks.flatMap fun blk => (e blk).map (·.id) := by
  rw [blockIds, expand_blocks, List.map_flatMap]

theorem instrs_expand :
    (f.expand e next).instrs = f.blocks.flatMap fun blk => (e blk).flatMap (·.instrs) := by
  rw [instrs, expand_blocks, List.flatMap_assoc]

/-- A change of one block of an expansion. -/
theorem mapBlock_expand {change : Block → Block} (hnd : (f.expand e next).blockIds.Nodup) :
    (f.expand e next).mapBlock b change =
      f.expand (fun blk => (e blk).map fun x => if x.id = b then change x else x) next := by
  rw [mapBlock, mapFirst_eq_map change hnd fun _ _ h => of_decide_eq_true h, expand_blocks,
    List.map_flatMap]
  simp only [decide_eq_true_iff]
  rfl

/-! ### Numbers in use -/

/-- The identifiers in use are below the counters. -/
structure Bounded (f : Func) : Prop where
  blocks_lt : ∀ b ∈ f.blockIds, b.index < f.next.block
  params_lt : ∀ v ∈ f.paramValues, v.index < f.next.value
  results_lt : ∀ v ∈ f.results, v.index < f.next.value
  instrs_lt : ∀ i ∈ f.instrs, i.id.index < f.next.instr

/-- The identifiers in use are below the counters, and no two instructions share one. -/
structure Numbered (f : Func) : Prop where
  blocks_lt : ∀ b ∈ f.blockIds, b.index < f.next.block
  params_lt : ∀ v ∈ f.paramValues, v.index < f.next.value
  results_lt : ∀ v ∈ f.results, v.index < f.next.value
  instrs_lt : ∀ i ∈ f.instrs, i.id.index < f.next.instr
  instrs_nodup : (f.instrs.map (·.id)).Nodup

theorem Numbered.bounded (h : f.Numbered) : f.Bounded :=
  ⟨h.blocks_lt, h.params_lt, h.results_lt, h.instrs_lt⟩

/-- The next block identifier is new. -/
theorem Bounded.fresh (h : f.Bounded) {n : Nat} (hn : f.next.block ≤ n) : ⟨n⟩ ∉ f.blockIds :=
  fun hmem => absurd (h.blocks_lt _ hmem) (Nat.not_lt.2 hn)

end Func

end BarrierLowering
