import BarrierLowering.Proofs.LoopShape
import Mathlib.Data.List.DropRight

/-!
# What stays of a kernel

Splits and loops put new blocks in front of the blocks of a kernel and new instructions in between.
Without these the kernel is what it was, and an edge to one of its blocks goes to the first of the
new blocks in front of that block now.

## Main definitions

* `Func.gate` — where control comes in to get to a block.
* `Func.Extends` — a function with new blocks and instructions.
* `Func.without` — a function without some instructions.

## Main results

* `Func.Extends.expand` — more new blocks.
* `Func.Cuts.extends`, `Func.Loopable.extends` — splits and loops.
* `Edit.apply_forM_remove` — instructions can be removed one after another.
* `Func.extends_of_transformed` — what a lowered kernel has left of the kernel.
-/

namespace BarrierLowering

/-- Taken from the right are the members at the end that pass a test, up to one that does not. -/
theorem rtakeWhile_append {α : Type} {p : α → Bool} {l l' : List α} (hl : ∀ x ∈ l.getLast?, ¬ p x)
    (hl' : ∀ x ∈ l', p x) : (l ++ l').rtakeWhile p = l' := by
  induction l' using List.reverseRecOn with
  | nil =>
    rw [List.append_nil, List.rtakeWhile_eq_nil_iff]
    exact fun hne => hl _ (List.getLast?_eq_some_getLast hne)
  | append_singleton l' x ih =>
    rw [← List.append_assoc, List.rtakeWhile_concat_pos _ _ _ (hl' x (by simp)),
      ih fun y hy => hl' y (List.mem_append_left _ hy)]

namespace Func

variable {f g : Func} {b t : BlockId} {blk : Block} {front : Block → List Block}
  {last : Block → Block} {r : BlockId → BlockId} {next : Counters} {erased is : List InstrId}

/-! ### Gates -/

/-- The first of the new blocks directly in front of a block, or the block itself if there are
none. A block is new if it is none of `f`. -/
def gate (g f : Func) (t : BlockId) : BlockId :=
  ((g.blockIds.takeWhile (· ≠ t)).rtakeWhile (· ∉ f.blockIds)).headD t

/-- A block of `g`, the new blocks directly in front of it, and what comes before and after. -/
structure GateAt (g f : Func) (t : BlockId) (before gates : List Block) (blk : Block)
    (after : List Block) : Prop where
  blocks : g.blocks = before ++ gates ++ blk :: after
  id : blk.id = t
  first : ∀ x ∈ before ++ gates, x.id ≠ t
  fresh : ∀ x ∈ gates, x.id ∉ f.blockIds
  /-- The run of new blocks cannot be made longer. -/
  old : ∀ x ∈ before.getLast?, x.id ∈ f.blockIds

theorem GateAt.gate_eq {before gates after : List Block} (h : g.GateAt f t before gates blk after) :
    g.gate f t = (gates.map (·.id)).headD t := by
  have htake : g.blockIds.takeWhile (· ≠ t) = before.map (·.id) ++ gates.map (·.id) := by
    rw [blockIds, h.blocks, List.map_append, List.map_append, List.map_cons, h.id,
      List.takeWhile_append_of_pos]
    · simp
    · intro x hx
      rw [← List.map_append] at hx
      obtain ⟨y, hy, rfl⟩ := List.mem_map.1 hx
      exact decide_eq_true (h.first y hy)
  rw [gate, htake, rtakeWhile_append]
  · intro x hx
    rw [List.getLast?_map, Option.mem_map] at hx
    obtain ⟨y, hy, rfl⟩ := hx
    simpa using h.old y hy
  · intro x hx
    obtain ⟨y, hy, rfl⟩ := List.mem_map.1 hx
    simpa using h.fresh y hy

theorem exists_gateAt (f : Func) (ht : t ∈ g.blockIds) :
    ∃ before gates blk after, g.GateAt f t before gates blk after := by
  obtain ⟨blk, hblk⟩ := mem_blockIds_iff.1 ht
  obtain ⟨hid, as, after, hsplit, hfirst⟩ := List.find?_eq_some_iff_append.1 hblk
  refine ⟨as.rdropWhile fun x => x.id ∉ f.blockIds, as.rtakeWhile fun x => x.id ∉ f.blockIds, blk,
    after, ?_, of_decide_eq_true hid, ?_, ?_, ?_⟩
  · rw [List.rdropWhile_append_rtakeWhile, hsplit]
  · rw [List.rdropWhile_append_rtakeWhile]
    exact fun x hx => by simpa using hfirst x hx
  · exact fun x hx => by simpa using List.mem_rtakeWhile_imp hx
  · intro x hx
    obtain ⟨hne, rfl⟩ := List.mem_getLast?_eq_getLast hx
    simpa using List.rdropWhile_last_not _ _ hne

/-! ### Functions with new blocks -/

/-- What `g` has of `f`, apart from some instructions: between the new blocks and instructions there
are the old ones, in their order. An edge to an old block goes to its gate. -/
structure Extends (g f : Func) (erased : List InstrId) : Prop where
  name : g.name = f.name
  convention : g.convention = f.convention
  params : g.params = f.params
  returnTy : g.returnTy = f.returnTy
  instrs : g.instrs.filter (fun i => i.id.index < f.next.instr) =
    f.instrs.filter fun i => i.id ∉ erased
  blocks : (g.blocks.filter fun blk => blk.id ∈ f.blockIds).map
      (fun blk => (blk.id, blk.label, blk.term)) =
    f.blocks.map fun blk => (blk.id, blk.label, blk.term.mapTargets (g.gate f))

/-- The old blocks are there. -/
theorem Extends.blockIds_subset (h : g.Extends f erased) : f.blockIds ⊆ g.blockIds := by
  intro t ht
  obtain ⟨blk, hblk, rfl⟩ := List.mem_map.1 ht
  have hmem : (blk.id, blk.label, blk.term.mapTargets (g.gate f)) ∈
      (g.blocks.filter fun blk => blk.id ∈ f.blockIds).map
        fun blk => (blk.id, blk.label, blk.term) := by
    rw [h.blocks]
    exact List.mem_map_of_mem hblk
  obtain ⟨x, hx, heq⟩ := List.mem_map.1 hmem
  exact List.mem_map.2 ⟨x, (List.mem_filter.1 hx).1, congrArg Prod.fst heq⟩

/-- A function has what it has. -/
theorem Extends.refl (hn : f.Numbered) : f.Extends f [] := by
  have hgate : f.gate f = id := by
    funext t
    have hnil : (f.blockIds.takeWhile (· ≠ t)).rtakeWhile (· ∉ f.blockIds) = [] := by
      rw [List.rtakeWhile_eq_nil_iff]
      intro hne
      simpa using (List.takeWhile_prefix _).subset (List.getLast_mem hne)
    rw [gate, hnil]
    rfl
  refine ⟨rfl, rfl, rfl, rfl, ?_, ?_⟩
  · rw [List.filter_eq_self.2 fun i hi => decide_eq_true (hn.instrs_lt i hi)]
    simp
  · have hall : f.blocks.filter (fun blk => blk.id ∈ f.blockIds) = f.blocks :=
      List.filter_eq_self.2 fun blk hblk => decide_eq_true (List.mem_map_of_mem hblk)
    rw [hall, hgate]
    simp only [Terminator.mapTargets_id]

/-- Putting new blocks in front of blocks, and new instructions into them, sends an edge to the
first new block in front of its target. -/
structure Prefixes (g f : Func) (front : Block → List Block) (last : Block → Block)
    (r : BlockId → BlockId) : Prop where
  last_eq : ∀ blk ∈ g.blocks, (last blk).id = blk.id ∧ (last blk).label = blk.label ∧
    (last blk).term = blk.term.mapTargets r
  fresh : ∀ blk ∈ g.blocks, ∀ x ∈ front blk, x.id ∉ f.blockIds
  gate : ∀ blk ∈ g.blocks, r blk.id = ((front blk).map (·.id)).headD blk.id
  instrs : ∀ blk ∈ g.blocks, ((front blk ++ [last blk]).flatMap (·.instrs)).filter
      (fun i => i.id.index < f.next.instr) =
    blk.instrs.filter fun i => i.id.index < f.next.instr

/-- The new blocks are none of `f`, and the others keep their identifiers. -/
theorem Prefixes.id_eq (h : g.Prefixes f front last r) {x : Block} (hblk : blk ∈ g.blocks)
    (hx : x ∈ front blk ++ [last blk]) : x.id ∉ f.blockIds ∨ x.id = blk.id := by
  rcases List.mem_append.1 hx with hx | hx
  · exact Or.inl (h.fresh blk hblk x hx)
  · rw [List.mem_singleton.1 hx]
    exact Or.inr (h.last_eq blk hblk).1

/-- What stands around a block and its gates when there are new blocks in front of all of them. -/
theorem Prefixes.gateAt_expand {before gates after : List Block} (h : g.Prefixes f front last r)
    (ht : t ∈ f.blockIds) (hat : g.GateAt f t before gates blk after) :
    (g.expand (fun blk => front blk ++ [last blk]) next).GateAt f t
      (before.flatMap fun blk => front blk ++ [last blk])
      (gates.flatMap (fun blk => front blk ++ [last blk]) ++ front blk) (last blk)
      (after.flatMap fun blk => front blk ++ [last blk]) := by
  have hblk : blk ∈ g.blocks := hat.blocks ▸ List.mem_append_right _ List.mem_cons_self
  have hbefore : ∀ y ∈ before ++ gates, y ∈ g.blocks := fun y hy =>
    hat.blocks ▸ List.mem_append_left _ hy
  refine ⟨?_, (h.last_eq blk hblk).1.trans hat.id, fun x hx heq => ?_, fun x hx => ?_,
    fun x hx => ?_⟩
  · rw [expand_blocks, hat.blocks]
    simp only [List.flatMap_append, List.flatMap_cons, List.append_assoc, List.singleton_append]
  · rw [← List.append_assoc, ← List.flatMap_append] at hx
    rcases List.mem_append.1 hx with hx | hx
    · obtain ⟨y, hy, hx⟩ := List.mem_flatMap.1 hx
      rcases h.id_eq (hbefore y hy) hx with hnew | hid
      · exact hnew (heq ▸ ht)
      · exact hat.first y hy (hid ▸ heq)
    · exact h.fresh blk hblk x hx (heq ▸ ht)
  · rcases List.mem_append.1 hx with hx | hx
    · obtain ⟨y, hy, hx⟩ := List.mem_flatMap.1 hx
      rcases h.id_eq (hbefore y (List.mem_append_right _ hy)) hx with hnew | hid
      · exact hnew
      · rw [hid]
        exact hat.fresh y hy
    · exact h.fresh blk hblk x hx
  · cases before using List.reverseRecOn with
    | nil => cases hx
    | append_singleton before y =>
      simp only [List.flatMap_append, List.flatMap_singleton, ← List.append_assoc,
        List.getLast?_concat, Option.mem_some_iff] at hx
      rw [← hx, (h.last_eq y (hbefore y (by simp))).1]
      exact hat.old y (by simp)

/-- New blocks in front of a gate make the first of them the gate. -/
theorem Prefixes.gate_expand (h : g.Prefixes f front last r) (hsub : f.blockIds ⊆ g.blockIds)
    (ht : t ∈ f.blockIds) :
    (g.expand (fun blk => front blk ++ [last blk]) next).gate f t = r (g.gate f t) := by
  obtain ⟨before, gates, blk, after, hat⟩ := exists_gateAt f (hsub ht)
  rw [hat.gate_eq, (h.gateAt_expand ht hat).gate_eq]
  cases gates with
  | nil =>
    rw [← hat.id]
    exact (h.gate blk (hat.blocks ▸ List.mem_append_right _ List.mem_cons_self)).symm
  | cons y gates =>
    have hy : y ∈ g.blocks := hat.blocks ▸ List.mem_append_left _ (by simp)
    show _ = r y.id
    rw [h.gate y hy]
    cases hfront : front y with
    | nil => simp [hfront, (h.last_eq y hy).1]
    | cons z zs => simp [hfront]

/-- Of the blocks that stand for a block, the last one is left without the new blocks. -/
theorem Prefixes.filter_expand (h : g.Prefixes f front last r) :
    (g.expand (fun blk => front blk ++ [last blk]) next).blocks.filter
        (fun blk => blk.id ∈ f.blockIds) =
      (g.blocks.filter fun blk => blk.id ∈ f.blockIds).map last := by
  have hall : ∀ l : List Block, (∀ blk ∈ l, blk ∈ g.blocks) →
      (l.flatMap fun blk => front blk ++ [last blk]).filter (fun blk => blk.id ∈ f.blockIds) =
        (l.filter fun blk => blk.id ∈ f.blockIds).map last := by
    intro l hl
    induction l with
    | nil => rfl
    | cons blk l ih =>
      have hblk := hl blk List.mem_cons_self
      have hnil : (front blk).filter (fun blk => blk.id ∈ f.blockIds) = [] :=
        List.filter_eq_nil_iff.2 fun x hx => by simpa using h.fresh blk hblk x hx
      rw [List.flatMap_cons, List.filter_append, List.filter_append, hnil, List.nil_append,
        ih fun x hx => hl x (List.mem_cons_of_mem _ hx), List.filter_cons, List.filter_cons,
        (h.last_eq blk hblk).1]
      split <;> rfl
  exact hall g.blocks fun _ hblk => hblk

/-- **Putting new blocks in front of blocks keeps what there is of a function.** -/
theorem Extends.expand (h : g.Extends f erased) (hp : g.Prefixes f front last r)
    (htargets : ∀ blk ∈ f.blocks, ∀ t ∈ blk.term.targets, t ∈ f.blockIds) :
    (g.expand (fun blk => front blk ++ [last blk]) next).Extends f erased := by
  refine ⟨h.name, h.convention, h.params, h.returnTy, Eq.trans ?_ h.instrs, ?_⟩
  · rw [instrs_expand, Func.instrs, List.filter_flatMap, List.filter_flatMap]
    exact List.flatMap_congr hp.instrs
  · have hlast : ((g.blocks.filter fun blk => blk.id ∈ f.blockIds).map last).map
        (fun blk => (blk.id, blk.label, blk.term)) =
          ((g.blocks.filter fun blk => blk.id ∈ f.blockIds).map
            fun blk => (blk.id, blk.label, blk.term)).map
              fun x => (x.1, x.2.1, x.2.2.mapTargets r) := by
      rw [List.map_map, List.map_map]
      refine List.map_congr_left fun blk hblk => ?_
      obtain ⟨hid, hlabel, hterm⟩ := hp.last_eq blk (List.mem_filter.1 hblk).1
      simp only [Function.comp_apply, hid, hlabel, hterm]
    rw [hp.filter_expand, hlast, h.blocks, List.map_map]
    refine List.map_congr_left fun blk hblk => ?_
    simp only [Function.comp_apply, Terminator.mapTargets_mapTargets]
    congr 2
    exact Terminator.mapTargets_congr fun t ht =>
      (hp.gate_expand h.blockIds_subset (htargets blk hblk t ht)).symm

/-! ### Splits and loops -/

theorem Extends.cut {index : Nat} {label : String} (h : g.Extends f erased)
    (hcut : g.Cuttable b index blk)
    (htargets : ∀ blk ∈ f.blocks, ∀ t ∈ blk.term.targets, t ∈ f.blockIds) :
    (g.cut b index label).Extends f erased := by
  have hexpand : g.cut b index label = g.expand
      (fun x => (if x.id = b then [⟨g.fresh, label, x.instrs.take index, .branch b⟩] else []) ++
        [{ x with
          instrs := if x.id = b then x.instrs.drop index else x.instrs
          term := x.term.retarget b g.fresh }])
      { g.next with block := g.next.block + 1 } := by
    refine expand_congr fun x _ => ?_
    split <;> rfl
  rw [hexpand]
  refine h.expand (r := fun t => if t = b then g.fresh else t)
    ⟨fun x _ => ⟨rfl, rfl, rfl⟩, fun x _ y hy => ?_, fun x _ => ?_, fun x _ => ?_⟩ htargets
  · split at hy
    · rw [List.mem_singleton.1 hy]
      exact fun hmem => hcut.fresh_not_mem (h.blockIds_subset hmem)
    · cases hy
  · split <;> rfl
  · -- the two parts of the block hold what it held
    split
    · simp only [List.singleton_append, List.flatMap_cons, List.flatMap_nil, List.append_nil,
        List.take_append_drop]
    · simp only [List.nil_append, List.flatMap_cons, List.flatMap_nil, List.append_nil]

theorem Cuts.extends (h : f.Cuts g) (hs : f.Shaped) (hn : f.Numbered) : g.Extends f [] := by
  induction h with
  | refl => exact .refl hn
  | step label _ hcut ih => exact ih.cut hcut hs.targets_exist

theorem Extends.looped {guard : TurnGuard} {plan : Plan} {ws : List Wrap} (h : g.Extends f erased)
    (hloop : g.Loopable guard plan ws next) (hle : f.next.instr ≤ g.next.instr)
    (htargets : ∀ blk ∈ f.blocks, ∀ t ∈ blk.term.targets, t ∈ f.blockIds) :
    (g.looped ws next).Extends f erased := by
  refine h.expand (r := detour ws) ⟨fun x _ => ⟨rfl, rfl, rfl⟩, fun x _ y hy => ?_, fun x _ => ?_,
    fun x _ => ?_⟩ htargets
  · refine fun hmem => hloop.fresh_not_mem ?_ (h.blockIds_subset hmem)
    rcases List.mem_append.1 hy with hy | hy
    · obtain ⟨w, hw, rfl⟩ := List.mem_map.1 hy
      exact Loopable.header_mem_fresh (List.mem_filter.1 hw).1
    · obtain ⟨w, hw, rfl⟩ := List.mem_map.1 hy
      exact Loopable.tail_mem_fresh (List.mem_filter.1 hw).1
  · have hhead := head?_looped ws x
    rw [Block.looped, List.head?_append] at hhead
    rw [List.headD_eq_head?_getD, List.head?_map]
    revert hhead
    cases ((ws.filter fun w => w.region.start = x.id).map Wrap.header ++
      (ws.filter fun w => w.region.succ = x.id).map Wrap.tail).head? with
    | none => exact fun hhead => (Option.some.inj hhead).symm
    | some y => exact fun hhead => (Option.some.inj hhead).symm
  · -- the new instructions have numbers that were not in use
    have hpart : ∀ (q : Wrap → Bool) (is : Wrap → List Instr),
        (∀ w, ∀ i ∈ is w, i ∈ w.code.instrs) →
        ((ws.filter q).flatMap is).filter (fun i => i.id.index < f.next.instr) = [] := by
      intro q is his
      refine List.filter_eq_nil_iff.2 fun i hi => ?_
      obtain ⟨w, hw, hi⟩ := List.mem_flatMap.1 hi
      have hge := (hloop.emits.id_mem
        (List.mem_flatMap.2 ⟨w, (List.mem_filter.1 hw).1, his w i hi⟩)).1
      simp only [decide_eq_true_eq]
      omega
    have hhead := hpart (fun w => w.region.start = x.id) (fun w => w.code.head)
      fun w i hi => List.mem_append_right _ (List.mem_append_left _ hi)
    have hback := hpart (fun w => w.region.succ = x.id) (fun w => w.code.back)
      fun w i hi => List.mem_append_right _ (List.mem_append_right _ hi)
    have hopening := hpart (fun w => w.region.pred = x.id) (fun w => w.code.opening)
      fun w i hi => List.mem_append_left _ hi
    simp only [List.flatMap_append, List.flatMap_map, List.flatMap_singleton, List.filter_append,
      Block.inner]
    show List.filter _ ((ws.filter _).flatMap fun w => w.code.head) ++
      List.filter _ ((ws.filter _).flatMap fun w => w.code.back) ++ _ = _
    rw [hhead, hback, hopening, List.append_nil, List.append_nil, List.nil_append]

/-! ### Removing instructions -/

/-- The function without some instructions. -/
def without (f : Func) (is : List InstrId) : Func :=
  { f with blocks := f.blocks.map fun blk =>
      { blk with instrs := blk.instrs.filter fun i => i.id ∉ is } }

theorem blockIds_without : (f.without is).blockIds = f.blockIds := by
  simp [blockIds, without, Function.comp_def]

theorem instrs_without : (f.without is).instrs = f.instrs.filter fun i => i.id ∉ is := by
  simp only [instrs, without, List.flatMap_map, List.filter_flatMap]

theorem without_nil : f.without [] = f := by
  simp [without]

theorem without_without {js : List InstrId} : (f.without is).without js = f.without (is ++ js) := by
  simp [without, List.filter_filter, not_or, Bool.and_comm]

theorem gate_without : (g.without is).gate f = g.gate f := by
  unfold gate
  rw [blockIds_without]

theorem Extends.without (h : g.Extends f []) (is : List InstrId) : (g.without is).Extends f is := by
  refine ⟨h.name, h.convention, h.params, h.returnTy, ?_, ?_⟩
  · rw [instrs_without, List.filter_comm, h.instrs]
    simp
  · rw [gate_without, ← h.blocks, Func.without, List.filter_map, List.map_map]
    rfl

theorem numbered_without (hn : f.Numbered) : (f.without is).Numbered := by
  have hsub : (f.without is).instrs.Sublist f.instrs := by
    rw [instrs_without]
    exact List.filter_sublist
  refine ⟨?_, hn.params_lt, fun v hv => hn.results_lt v ((hsub.filterMap _).subset hv),
    fun i hi => hn.instrs_lt i (hsub.subset hi), hn.instrs_nodup.sublist (hsub.map _)⟩
  rw [blockIds_without]
  exact hn.blocks_lt

/-- In a list with distinct keys, only one member goes with a key. -/
theorem filter_key_ne {α β : Type} [DecidableEq β] {key : α → β} {l l' : List α} {a : α}
    (hnd : ((l ++ a :: l').map key).Nodup) :
    (l ++ a :: l').filter (fun x => key x ≠ key a) = l ++ l' := by
  rw [List.map_append, List.map_cons, List.nodup_append, List.nodup_cons] at hnd
  obtain ⟨-, ⟨hright, -⟩, hleft⟩ := hnd
  rw [List.filter_append, List.filter_cons_of_neg (by simp)]
  congr 1
  · rw [List.filter_eq_self]
    exact fun x hx => decide_eq_true (hleft _ (List.mem_map_of_mem hx) _ List.mem_cons_self)
  · rw [List.filter_eq_self]
    exact fun x hx => decide_eq_true fun heq => hright (heq ▸ List.mem_map_of_mem hx)

end Func

/-- An edit of which only the effect counts. -/
theorem Edit.discard_eq_bind {ε α : Type} (e : Edit ε α) :
    (discard e : Edit ε Unit) = e >>= fun _ => pure () := by
  rw [discard, map_const, bind_pure_comp]
  rfl

theorem Edit.apply_discard_ok {ε α : Type} {e : Edit ε α} {f g : Func} {a : α}
    (h : e.apply f = (.ok a, g)) : (discard e).apply f = (.ok (), g) := by
  rw [discard_eq_bind, apply_bind_ok h, apply_pure]

open Func in
/-- An instruction can be removed. -/
theorem Edit.apply_remove {f : Func} {i : Instr} (hids : f.blockIds.Nodup) (hn : f.Numbered)
    (hi : i ∈ f.instrs) : (Edit.remove i.id).apply f = (.ok i, f.without [i.id]) := by
  obtain ⟨blk, hblk, hi⟩ := List.mem_flatMap.1 hi
  obtain ⟨is, js, hsplit⟩ := List.append_of_mem hi
  have hb := block?_id hids hblk
  have hwithout : f.mapBlock blk.id (fun x => { x with instrs := x.instrs.eraseIdx is.length }) =
      f.without [i.id] := by
    rw [mapBlock, mapFirst_eq_map _ hids fun x _ hx => of_decide_eq_true hx]
    refine congrArg (fun blocks => { f with blocks }) (List.map_congr_left fun x hx => ?_)
    by_cases hid : x.id = blk.id
    · obtain rfl := List.inj_on_of_nodup_map hids hx hblk hid
      have hnd : ((is ++ i :: js).map (·.id)).Nodup := by
        have hnd := hn.instrs_nodup
        rw [instrs, List.map_flatMap, List.nodup_flatMap] at hnd
        exact hsplit ▸ hnd.1 x hx
      have hfilter := filter_key_ne hnd
      simp only [hsplit, decide_true, if_true, List.mem_singleton,
        List.eraseIdx_append_of_length_le,
        Nat.le_refl, Nat.sub_self, List.eraseIdx_cons_zero]
      rw [← hfilter]
    · have hkeep : x.instrs.filter (fun j => j.id ∉ [i.id]) = x.instrs := by
        refine List.filter_eq_self.2 fun j hj => decide_eq_true fun heq => hid ?_
        refine (eq_of_mem_instrsOf hn.instrs_nodup ?_ ?_ (List.mem_singleton.1 heq)).1
        · rwa [instrsOf_of_block? (block?_id hids hx)]
        · rwa [instrsOf_of_block? hb]
      simp only [hid, decide_false, Bool.false_eq_true, if_false, hkeep]
  unfold Edit.remove
  simp only [apply_bind, apply_require, hn.locate?_eq hb hsplit, hb, Option.bind_some, hsplit,
    List.getElem?_append_right, Nat.le_refl, Nat.sub_self, List.getElem?_cons_zero, apply_modify,
    apply_pure, hwithout]

open Func in
/-- Instructions can be removed one after another. -/
theorem Edit.apply_forM_remove {is : List InstrId} : ∀ {f : Func}, f.blockIds.Nodup → f.Numbered →
    is.Nodup → (∀ i ∈ is, i ∈ f.instrs.map (·.id)) →
      (is.forM fun i => discard (lift (remove i))).apply f = (.ok (), f.without is) := by
  induction is with
  | nil =>
    intro f _ _ _ _
    rw [without_nil]
    rfl
  | cons i is ih =>
    intro f hids hn hnd hmem
    obtain ⟨hnot, hrest⟩ := List.nodup_cons.1 hnd
    obtain ⟨x, hx, rfl⟩ := List.mem_map.1 (hmem i List.mem_cons_self)
    have hremoved := ih (f := f.without [x.id])
      (by rwa [blockIds_without]) (numbered_without hn) hrest
      (by
        intro j hj
        obtain ⟨y, hy, rfl⟩ := List.mem_map.1 (hmem j (List.mem_cons_of_mem _ hj))
        rw [instrs_without]
        refine List.mem_map_of_mem (List.mem_filter.2 ⟨hy, decide_eq_true fun heq => hnot ?_⟩)
        rwa [← List.mem_singleton.1 heq])
    rw [without_without] at hremoved
    exact (apply_bind_ok (apply_discard_ok (apply_lift_ok
      (apply_remove hids hn hx)))).trans hremoved

/-! ### Lowered kernels -/

/-- The barriers that are removed in the end. -/
def Config.erased (config : Config) (plan : Plan) : List InstrId :=
  if config.eraseBarriers then plan.barriers else []

open Func in
/-- Once the loops are built, the barriers are removed if that is asked for. -/
theorem Func.Lowered.apply_carryOut {f g : Func} {config : Config} {plan : Plan}
    {front first : BlockId} {ws : List Wrap} {next : Counters}
    (h : f.Lowered g config plan front first ws next) (hshape : f.Shaped) (hn : f.Numbered)
    (hdraft : f.draft config = .ok plan)
    (hregions : plan.buildRegions.apply f = (.ok (ws.map Wrap.region), g))
    (hwraps : ((ws.map Wrap.region).mapM fun r : Region => r.wrap config.turnGuard plan).apply g =
      (.ok (ws.map Wrap.loop), g.looped ws next)) :
    (plan.carryOut config).apply f =
      (.ok (ws.map Wrap.loop), (g.looped ws next).without (config.erased plan)) := by
  have hloop := h.loopable
  have hord := inOrder_of_draft hshape.blocks_nodup hdraft
  unfold Plan.carryOut Config.erased
  refine (Edit.apply_bind_ok hregions).trans ((Edit.apply_bind_ok hwraps).trans ?_)
  cases config.eraseBarriers with
  | false =>
    simp only [Bool.false_eq_true, if_false, without_nil]
    rfl
  | true =>
    refine (Edit.apply_bind_ok (Edit.apply_forM_remove hloop.blockIds_nodup
      (hloop.numbered_looped h.numbered) (hord.nodup hn.instrs_nodup) fun i hi => ?_)).trans rfl
    obtain ⟨z, hz, rfl, -⟩ := hord.exists_barrier hi
    rw [← h.cuts.same.1] at hz
    exact List.mem_map_of_mem (hloop.instrs_perm.mem_iff.2 (List.mem_append_left _ hz))

open Func in
/-- A drafted kernel can be lowered, and its barriers removed if that is asked for. -/
theorem Plan.exists_carriedOut {f : Func} {config : Config} {plan : Plan} (hshape : f.Shaped)
    (hn : f.Numbered) (hdraft : f.draft config = .ok plan) :
    ∃ g front first ws next, f.Lowered g config plan front first ws next ∧
      (plan.carryOut config).apply f =
        (.ok (ws.map Wrap.loop), (g.looped ws next).without (config.erased plan)) := by
  obtain ⟨g, front, first, ws, next, hlowered, hregions, hwraps⟩ :=
    Plan.exists_lowered hshape hn hdraft
  exact ⟨g, front, first, ws, next, hlowered,
    hlowered.apply_carryOut hshape hn hdraft hregions hwraps⟩

namespace Func

/-- A kernel with a plan is lowered. -/
theorem exists_transformed {f : Func} {config : Config} {plan : Plan} (hf : f.defects = [])
    (hn : f.Numbered) (hplan : f.plan config = .ok plan) :
    ∃ loops g, (lowerKernel config).apply f = (.ok (.transformed loops), g) := by
  obtain ⟨_, _, _, _, _, -, hcarry⟩ := Plan.exists_carriedOut (defects_eq_nil_iff.1 hf).toShaped hn
    (plan_eq_ok_iff.1 hplan).1
  exact ⟨_, _, apply_lowerKernel_of_ok hplan hcarry⟩

/-- **A lowered kernel has all of the kernel.**  Without the new blocks and the new instructions, it
has the blocks and the instructions of the kernel, each once and in the same order; only the
barriers are missing if they are to be removed. Its old edges go where they went, through the first
of the new blocks that stand in front of their target. -/
theorem extends_of_transformed (f g : Func) (config : Config) (loops : List TurnLoop)
    (hf : f.defects = []) (hn : f.Numbered)
    (h : (lowerKernel config).apply f = (.ok (.transformed loops), g)) :
    ∃ plan, f.plan config = .ok plan ∧ g.Extends f (config.erased plan) := by
  have hs := (defects_eq_nil_iff.1 hf).toShaped
  obtain ⟨plan, hplan, hout⟩ := exists_plan_of_transformed h
  obtain ⟨g', front, first, ws, next, hlowered, hcarry⟩ :=
    Plan.exists_carriedOut hs hn (plan_eq_ok_iff.1 hplan).1
  cases hcarry.symm.trans hout
  have hcuts := hlowered.cuts.extends hs hn
  have hle := hlowered.cuts.same.2.2.2.2.ge
  exact ⟨plan, hplan, (hcuts.looped hlowered.loopable hle hs.targets_exist).without _⟩

/-- The group queries are all that is left of a kernel whose threads wait twice. -/
theorem extends_of_transformed_waitingTwice :
    waitingTwice.defects = [] ∧ waitingTwice.Numbered ∧
      ∃ loops g, (lowerKernel { Config.standard with eraseBarriers := true }).apply waitingTwice =
          (.ok (.transformed loops), g) ∧
        g.instrs.filter (fun i => i.id.index < 4) = waitingTwice.instrs.take 2 := by
  obtain ⟨loops, g, happly⟩ :=
    exists_transformed defects_waitingTwice numbered_waitingTwice (plan_waitingTwice true)
  obtain ⟨plan, hplan, hextends⟩ :=
    extends_of_transformed _ _ _ _ defects_waitingTwice numbered_waitingTwice happly
  obtain rfl := Except.ok.inj ((plan_waitingTwice true).symm.trans hplan)
  exact ⟨defects_waitingTwice, numbered_waitingTwice, loops, g, happly,
    hextends.instrs.trans (by decide)⟩

end Func

end BarrierLowering
