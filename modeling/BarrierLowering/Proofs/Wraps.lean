import BarrierLowering.Proofs.Loop

/-!
# Loops around several regions

The regions of a kernel are described before any loop is built. Loops around regions that do not
touch each other can be built one after another, and the result is the same as if they were all
built at once.

## Main definitions

* `Wrap`, `Func.looped` — a region with its code, and the function with all loops.
* `Func.Spaced`, `Func.Loopable` — regions that do not touch, and code that is new.

## Main results

* `Func.Loopable.apply_wraps` — wrapping one region after another succeeds, with that result.
* `Func.Loopable.block?_old`, `Func.Loopable.block?_header`, `Func.Loopable.block?_tail` — the
  blocks of the function with all loops.
-/

namespace BarrierLowering

/-- A region and the code of the loop around it. -/
structure Wrap where
  region : Region
  code : LoopCode

namespace Wrap

/-- The header of the loop. -/
def header (w : Wrap) : Block := w.code.headerBlock w.region

/-- The tail of the loop. -/
def tail (w : Wrap) : Block := w.code.tailBlock w.region

/-- The report about the loop. -/
def loop (w : Wrap) : TurnLoop := w.region.loop w.code

/-- The blocks of the loop. -/
def fresh (w : Wrap) : List BlockId := [w.code.header, w.code.tail]

end Wrap

/-- Where edges to a block lead when there are loops around regions. -/
def detour (ws : List Wrap) (x : BlockId) : BlockId :=
  match ws.find? fun w => w.region.start = x with
  | some w => w.code.header
  | none =>
    match ws.find? fun w => w.region.succ = x with
    | some w => w.code.tail
    | none => x

/-- What becomes of a block when there are loops around regions. -/
def Block.inner (ws : List Wrap) (blk : Block) : Block :=
  { blk with
    instrs := blk.instrs ++ (ws.filter fun w => w.region.pred = blk.id).flatMap (·.code.opening)
    term := blk.term.mapTargets (detour ws) }

/-- The blocks that stand for a block when there are loops around regions. -/
def Block.looped (ws : List Wrap) (blk : Block) : List Block :=
  (ws.filter fun w => w.region.start = blk.id).map Wrap.header ++
    (ws.filter fun w => w.region.succ = blk.id).map Wrap.tail ++ [blk.inner ws]

namespace Func

/-- The function with loops around regions. -/
def looped (f : Func) (ws : List Wrap) (next : Counters) : Func := f.expand (Block.looped ws) next

/-- Regions of a function that do not touch each other. -/
structure Spaced (f : Func) (rs : List Region) : Prop where
  region : ∀ r ∈ rs, f.IsRegion r
  pred_ne_start : ∀ r ∈ rs, r.pred ≠ r.start
  pred_ne_succ : ∀ r ∈ rs, r.pred ≠ r.succ
  starts : (rs.map (·.start)).Nodup
  succs : (rs.map (·.succ)).Nodup
  disjoint : ∀ r ∈ rs, ∀ r' ∈ rs, r.start ≠ r'.succ

/-- Code for loops around regions that do not touch each other, with new identifiers only. -/
structure Loopable (f : Func) (guard : TurnGuard) (plan : Plan) (ws : List Wrap)
    (next : Counters) : Prop where
  shaped : f.Shaped
  bounded : f.Bounded
  spaced : f.Spaced (ws.map (·.region))
  code : ∀ w ∈ ws, ∃ c, w.code = w.region.code guard plan c
  emits : f.next.Emits (ws.flatMap (·.code.instrs)) next
  fresh_nodup : (ws.flatMap Wrap.fresh).Nodup
  fresh_ge : ∀ b ∈ ws.flatMap Wrap.fresh, f.next.block ≤ b.index
  fresh_lt : ∀ b ∈ ws.flatMap Wrap.fresh, b.index < next.block
  block_le : f.next.block ≤ next.block

variable {f : Func} {guard : TurnGuard} {plan : Plan} {ws : List Wrap} {w : Wrap}
  {next : Counters} {r : Region} {rs rs' : List Region} {a b x : BlockId} {blk : Block}

/-! ### Regions -/

theorem Spaced.of_append (h : f.Spaced (rs ++ rs')) : f.Spaced rs := by
  have hmem : ∀ r ∈ rs, r ∈ rs ++ rs' := fun r hr => List.mem_append_left _ hr
  have hstarts := h.starts
  have hsuccs := h.succs
  rw [List.map_append] at hstarts hsuccs
  exact ⟨fun r hr => h.region r (hmem r hr), fun r hr => h.pred_ne_start r (hmem r hr),
    fun r hr => h.pred_ne_succ r (hmem r hr), hstarts.of_append_left, hsuccs.of_append_left,
    fun r hr r' hr' => h.disjoint r (hmem r hr) r' (hmem r' hr')⟩

/-- Some of the regions, in any order. -/
theorem Spaced.of_subset (h : f.Spaced rs) (hsub : rs' ⊆ rs) (hnd : rs'.Nodup) : f.Spaced rs' := by
  refine ⟨fun r hr => h.region r (hsub hr), fun r hr => h.pred_ne_start r (hsub hr),
    fun r hr => h.pred_ne_succ r (hsub hr), ?_, ?_, fun r hr r' hr' =>
      h.disjoint r (hsub hr) r' (hsub hr')⟩
  · exact hnd.map_on fun r hr r' hr' =>
      List.inj_on_of_nodup_map h.starts (hsub hr) (hsub hr')
  · exact hnd.map_on fun r hr r' hr' =>
      List.inj_on_of_nodup_map h.succs (hsub hr) (hsub hr')

theorem IsRegion.pred_mem (h : f.IsRegion r) : r.pred ∈ f.blockIds :=
  Graph.Edge.mem_nodes ((h.leaves r.start).2 rfl)

theorem Shaped.mem_of_edge (h : f.Shaped) (hab : f.graph.Edge a b) : b ∈ f.blockIds := by
  obtain ⟨blk, hblk, hb⟩ := edge_iff.1 hab
  exact h.targets_exist blk (block?_mem hblk).1 b hb

theorem IsRegion.start_mem (h : f.IsRegion r) (hs : f.Shaped) : r.start ∈ f.blockIds :=
  hs.mem_of_edge ((h.leaves r.start).2 rfl)

theorem IsRegion.succ_mem (h : f.IsRegion r) (hs : f.Shaped) : r.succ ∈ f.blockIds :=
  hs.mem_of_edge ((h.closes r.exit).2 rfl)

/-! ### Detours -/

theorem detour_start (h : f.Spaced (ws.map (·.region))) (hw : w ∈ ws) :
    detour ws w.region.start = w.code.header := by
  have hstarts := h.starts
  rw [List.map_map] at hstarts
  have hfind : (ws.find? fun w' => w'.region.start = w.region.start) = some w :=
    find?_eq_some_of_unique hw (decide_eq_true rfl) fun w' hw' heq =>
      List.inj_on_of_nodup_map hstarts hw' hw (of_decide_eq_true heq)
  rw [detour, hfind]

theorem detour_succ (h : f.Spaced (ws.map (·.region))) (hw : w ∈ ws) :
    detour ws w.region.succ = w.code.tail := by
  have hsuccs := h.succs
  rw [List.map_map] at hsuccs
  have hnone : (ws.find? fun w' => w'.region.start = w.region.succ) = none := by
    rw [List.find?_eq_none]
    intro w' hw' heq
    exact h.disjoint _ (List.mem_map_of_mem hw') _ (List.mem_map_of_mem hw) (of_decide_eq_true heq)
  have hfind : (ws.find? fun w' => w'.region.succ = w.region.succ) = some w :=
    find?_eq_some_of_unique hw (decide_eq_true rfl) fun w' hw' heq =>
      List.inj_on_of_nodup_map hsuccs hw' hw (of_decide_eq_true heq)
  rw [detour, hnone, hfind]

theorem detour_of_ne (hstart : ∀ w ∈ ws, w.region.start ≠ x) (hsucc : ∀ w ∈ ws, w.region.succ ≠ x) :
    detour ws x = x := by
  have hnone : (ws.find? fun w => w.region.start = x) = none := by
    rw [List.find?_eq_none]
    exact fun w hw heq => hstart w hw (of_decide_eq_true heq)
  have hnone' : (ws.find? fun w => w.region.succ = x) = none := by
    rw [List.find?_eq_none]
    exact fun w hw heq => hsucc w hw (of_decide_eq_true heq)
  rw [detour, hnone, hnone']

/-- A block is the start of a region, or the block of its barrier, or none of these. -/
theorem start_or_succ_or_not (ws : List Wrap) (x : BlockId) :
    (∃ w ∈ ws, w.region.start = x) ∨ (∃ w ∈ ws, w.region.succ = x) ∨
      (∀ w ∈ ws, w.region.start ≠ x) ∧ ∀ w ∈ ws, w.region.succ ≠ x := by
  by_cases hstart : ∃ w ∈ ws, w.region.start = x
  · exact Or.inl hstart
  · by_cases hsucc : ∃ w ∈ ws, w.region.succ = x
    · exact Or.inr (Or.inl hsucc)
    · exact Or.inr (Or.inr ⟨fun w hw heq => hstart ⟨w, hw, heq⟩,
        fun w hw heq => hsucc ⟨w, hw, heq⟩⟩)

/-- A detour leads to the first of the blocks that stand for a block. -/
theorem head?_looped (ws : List Wrap) (blk : Block) :
    (blk.looped ws).head?.map (·.id) = some (detour ws blk.id) := by
  rw [Block.looped, detour, List.head?_append, List.head?_append, List.head?_map, List.head?_map,
    List.head?_filter, List.head?_filter]
  cases ws.find? fun w => w.region.start = blk.id with
  | some w => rfl
  | none =>
    cases ws.find? fun w => w.region.succ = blk.id with
    | some w => rfl
    | none => rfl

/-- No loops, no change. -/
theorem looped_nil (f : Func) : f.looped [] f.next = f := by
  have hself : ∀ blk ∈ f.blocks, Block.looped [] blk = [blk] := by
    intro blk _
    have hterm : blk.term.mapTargets (detour []) = blk.term := blk.term.mapTargets_id
    rw [Block.looped, Block.inner, hterm]
    simp
  rw [looped, expand_congr hself, expand_self]

/-- Where the entry of a function with loops is. -/
theorem entryId?_looped : (f.looped ws next).entryId? = f.entryId?.map (detour ws) := by
  rw [entryId?, entryId?, entry?, entry?, looped, expand_blocks]
  cases f.blocks with
  | nil => rfl
  | cons first rest =>
    rw [List.flatMap_cons, List.head?_append_of_ne_nil _ (by simp [Block.looped]),
      head?_looped]
    rfl

/-! ### Blocks and instructions -/

namespace Loopable

theorem isRegion (h : f.Loopable guard plan ws next) (hw : w ∈ ws) : f.IsRegion w.region :=
  h.spaced.region _ (List.mem_map_of_mem hw)

theorem pred_mem (h : f.Loopable guard plan ws next) (hw : w ∈ ws) : w.region.pred ∈ f.blockIds :=
  (h.isRegion hw).pred_mem

theorem start_mem (h : f.Loopable guard plan ws next) (hw : w ∈ ws) :
    w.region.start ∈ f.blockIds :=
  (h.isRegion hw).start_mem h.shaped

theorem succ_mem (h : f.Loopable guard plan ws next) (hw : w ∈ ws) : w.region.succ ∈ f.blockIds :=
  (h.isRegion hw).succ_mem h.shaped

theorem header_mem_fresh (hw : w ∈ ws) : w.code.header ∈ ws.flatMap Wrap.fresh :=
  List.mem_flatMap.2 ⟨w, hw, List.mem_cons_self⟩

theorem tail_mem_fresh (hw : w ∈ ws) : w.code.tail ∈ ws.flatMap Wrap.fresh :=
  List.mem_flatMap.2 ⟨w, hw, List.mem_cons_of_mem _ List.mem_cons_self⟩

/-- The blocks of the loops are new. -/
theorem fresh_not_mem (h : f.Loopable guard plan ws next) (hx : x ∈ ws.flatMap Wrap.fresh) :
    x ∉ f.blockIds :=
  h.bounded.fresh (h.fresh_ge x hx)

theorem header_not_mem (h : f.Loopable guard plan ws next) (hw : w ∈ ws) :
    w.code.header ∉ f.blockIds :=
  h.fresh_not_mem (header_mem_fresh hw)

theorem tail_not_mem (h : f.Loopable guard plan ws next) (hw : w ∈ ws) :
    w.code.tail ∉ f.blockIds :=
  h.fresh_not_mem (tail_mem_fresh hw)

/-- A block of a loop is in one loop only, and there in one place. -/
theorem eq_of_mem_fresh (h : f.Loopable guard plan ws next) {w' : Wrap} (hw : w ∈ ws)
    (hw' : w' ∈ ws) (hx : x ∈ w.fresh) (hx' : x ∈ w'.fresh) : w = w' := by
  by_contra hne
  have hnd := h.fresh_nodup
  rw [List.nodup_flatMap] at hnd
  have hsymm : Std.Symm (Function.onFun List.Disjoint Wrap.fresh) := ⟨fun _ _ => List.disjoint_symm⟩
  exact hnd.2.forall hw hw' hne hx hx'

theorem eq_of_header (h : f.Loopable guard plan ws next) {w' : Wrap} (hw : w ∈ ws) (hw' : w' ∈ ws)
    (heq : w.code.header = w'.code.header) : w = w' :=
  h.eq_of_mem_fresh hw hw' List.mem_cons_self (heq ▸ List.mem_cons_self)

theorem eq_of_tail (h : f.Loopable guard plan ws next) {w' : Wrap} (hw : w ∈ ws) (hw' : w' ∈ ws)
    (heq : w.code.tail = w'.code.tail) : w = w' :=
  h.eq_of_mem_fresh hw hw' (List.mem_cons_of_mem _ List.mem_cons_self)
    (heq ▸ List.mem_cons_of_mem _ List.mem_cons_self)

theorem header_ne_tail (h : f.Loopable guard plan ws next) {w' : Wrap} (hw : w ∈ ws)
    (hw' : w' ∈ ws) : w.code.header ≠ w'.code.tail := by
  intro heq
  have hsame : w = w' := h.eq_of_mem_fresh hw hw' List.mem_cons_self
    (heq ▸ List.mem_cons_of_mem _ List.mem_cons_self)
  subst hsame
  have hnd := h.fresh_nodup
  rw [List.nodup_flatMap] at hnd
  exact (List.nodup_cons.1 (hnd.1 w hw)).1 (heq ▸ List.mem_cons_self)

theorem eq_of_start (h : f.Loopable guard plan ws next) {w' : Wrap} (hw : w ∈ ws) (hw' : w' ∈ ws)
    (heq : w.region.start = w'.region.start) : w = w' := by
  have hstarts := h.spaced.starts
  rw [List.map_map] at hstarts
  exact List.inj_on_of_nodup_map hstarts hw hw' heq

theorem eq_of_succ (h : f.Loopable guard plan ws next) {w' : Wrap} (hw : w ∈ ws) (hw' : w' ∈ ws)
    (heq : w.region.succ = w'.region.succ) : w = w' := by
  have hsuccs := h.spaced.succs
  rw [List.map_map] at hsuccs
  exact List.inj_on_of_nodup_map hsuccs hw hw' heq

/-- The block identifiers of the function with loops: the new ones, and those from before. -/
theorem blockIds_perm (h : f.Loopable guard plan ws next) :
    (f.looped ws next).blockIds.Perm (ws.flatMap Wrap.fresh ++ f.blockIds) := by
  have hids : (f.looped ws next).blockIds = f.blocks.flatMap fun blk =>
      ((ws.filter fun w => w.region.start = blk.id).map (·.code.header) ++
        (ws.filter fun w => w.region.succ = blk.id).map (·.code.tail)) ++ [blk.id] := by
    rw [looped, blockIds_expand]
    refine List.flatMap_congr fun blk _ => ?_
    rw [Block.looped, List.map_append, List.map_append, List.map_map, List.map_map]
    rfl
  have hstarts := flatMap_filter_perm (k := fun w : Wrap => w.region.start)
    h.shaped.blocks_nodup fun w (hw : w ∈ ws) => h.start_mem hw
  have hsuccs := flatMap_filter_perm (k := fun w : Wrap => w.region.succ)
    h.shaped.blocks_nodup fun w (hw : w ∈ ws) => h.succ_mem hw
  rw [hids]
  refine (List.flatMap_append_perm _ _ _).symm.trans (List.Perm.append ?_ (List.Perm.of_eq ?_))
  · refine (List.flatMap_append_perm _ _ _).symm.trans ?_
    rw [← List.map_flatMap, ← List.map_flatMap]
    refine ((hstarts.map _).append (hsuccs.map _)).trans ?_
    rw [List.map_eq_flatMap, List.map_eq_flatMap]
    exact List.flatMap_append_perm _ _ _
  · rw [← List.map_eq_flatMap]
    rfl

theorem blockIds_nodup (h : f.Loopable guard plan ws next) : (f.looped ws next).blockIds.Nodup := by
  refine h.blockIds_perm.nodup_iff.2
    (List.nodup_append.2 ⟨h.fresh_nodup, h.shaped.blocks_nodup, ?_⟩)
  rintro x hx y hy rfl
  exact h.fresh_not_mem hx hy

/-- The instructions of the function with loops: the new ones, and those from before. -/
theorem instrs_perm (h : f.Loopable guard plan ws next) :
    (f.looped ws next).instrs.Perm (f.instrs ++ ws.flatMap (·.code.instrs)) := by
  have hinstrs : (f.looped ws next).instrs = f.blocks.flatMap fun blk =>
      ((ws.filter fun w => w.region.start = blk.id).flatMap (·.code.head) ++
        (ws.filter fun w => w.region.succ = blk.id).flatMap (·.code.back)) ++
      (blk.instrs ++ (ws.filter fun w => w.region.pred = blk.id).flatMap (·.code.opening)) := by
    rw [looped, instrs_expand]
    refine List.flatMap_congr fun blk _ => ?_
    rw [Block.looped, List.flatMap_append, List.flatMap_append, List.flatMap_map, List.flatMap_map,
      List.flatMap_singleton]
    rfl
  have hstarts := flatMap_filter_perm (k := fun w : Wrap => w.region.start)
    h.shaped.blocks_nodup fun w (hw : w ∈ ws) => h.start_mem hw
  have hsuccs := flatMap_filter_perm (k := fun w : Wrap => w.region.succ)
    h.shaped.blocks_nodup fun w (hw : w ∈ ws) => h.succ_mem hw
  have hpreds := flatMap_filter_perm (k := fun w : Wrap => w.region.pred)
    h.shaped.blocks_nodup fun w (hw : w ∈ ws) => h.pred_mem hw
  have hcode : (ws.flatMap (·.code.instrs)).Perm (ws.flatMap (·.code.opening) ++
      (ws.flatMap (·.code.head) ++ ws.flatMap (·.code.back))) :=
    (List.flatMap_append_perm _ _ _).symm.trans
      ((List.Perm.refl _).append (List.flatMap_append_perm _ _ _).symm)
  have hnew : (f.blocks.flatMap fun blk =>
      (ws.filter fun w => w.region.start = blk.id).flatMap (·.code.head) ++
        (ws.filter fun w => w.region.succ = blk.id).flatMap (·.code.back)).Perm
      (ws.flatMap (·.code.head) ++ ws.flatMap (·.code.back)) := by
    refine (List.flatMap_append_perm _ _ _).symm.trans ?_
    rw [← List.flatMap_assoc, ← List.flatMap_assoc]
    exact (hstarts.flatMap_right _).append (hsuccs.flatMap_right _)
  have hold : (f.blocks.flatMap fun blk =>
      blk.instrs ++ (ws.filter fun w => w.region.pred = blk.id).flatMap (·.code.opening)).Perm
      (f.instrs ++ ws.flatMap (·.code.opening)) := by
    refine (List.flatMap_append_perm _ _ _).symm.trans ((List.Perm.refl _).append ?_)
    rw [← List.flatMap_assoc]
    exact hpreds.flatMap_right _
  rw [hinstrs]
  refine (List.flatMap_append_perm _ _ _).symm.trans ((hnew.append hold).trans ?_)
  refine List.perm_append_comm.trans ?_
  rw [List.append_assoc]
  exact (List.Perm.refl _).append hcode.symm

/-- The values that the function with loops defines: the new ones, and those from before. -/
theorem results_perm (h : f.Loopable guard plan ws next) : (f.looped ws next).results.Perm
    (f.results ++ (ws.flatMap (·.code.instrs)).filterMap (·.result)) := by
  rw [results, results, ← List.filterMap_append]
  exact h.instrs_perm.filterMap _

/-- The identifiers in use stay below the counters. -/
theorem bounded_looped (h : f.Loopable guard plan ws next) : (f.looped ws next).Bounded := by
  have hvalue := h.emits.value_le
  refine ⟨fun b hb => ?_, fun v hv => ?_, fun v hv => ?_, fun i hi => ?_⟩
  · rcases List.mem_append.1 (h.blockIds_perm.mem_iff.1 hb) with hb | hb
    · exact h.fresh_lt b hb
    · exact (h.bounded.blocks_lt b hb).trans_le h.block_le
  · exact (h.bounded.params_lt v hv).trans_le hvalue
  · rcases List.mem_append.1 (h.results_perm.mem_iff.1 hv) with hv | hv
    · exact (h.bounded.results_lt v hv).trans_le hvalue
    · obtain ⟨i, hi, hiv⟩ := List.mem_filterMap.1 hv
      exact (h.emits.result_mem hi hiv).2
  · rcases List.mem_append.1 (h.instrs_perm.mem_iff.1 hi) with hi | hi
    · exact (h.bounded.instrs_lt i hi).trans_le h.emits.instr_le
    · exact (h.emits.id_mem hi).2

/-- The instructions of the loops share no identifier with the others. -/
theorem numbered_looped (h : f.Loopable guard plan ws next) (hn : f.Numbered) :
    (f.looped ws next).Numbered := by
  obtain ⟨hblocks, hparams, hresults, hinstrs⟩ := h.bounded_looped
  refine ⟨hblocks, hparams, hresults, hinstrs, ?_⟩
  rw [(h.instrs_perm.map _).nodup_iff, List.map_append, List.nodup_append]
  refine ⟨hn.instrs_nodup, h.emits.nodup_ids, ?_⟩
  intro x hx y hy hxy
  obtain ⟨i, hi, rfl⟩ := List.mem_map.1 hx
  obtain ⟨j, hj, rfl⟩ := List.mem_map.1 hy
  have hlt := hn.instrs_lt i hi
  have hge := (h.emits.id_mem hj).1
  rw [hxy] at hlt
  exact absurd hlt (Nat.not_lt.2 hge)

/-! ### One loop after another -/

/-- No region is no loop. -/
theorem nil (hs : f.Shaped) (hn : f.Bounded) : f.Loopable guard plan [] f.next := by
  refine ⟨hs, hn, ⟨nofun, nofun, nofun, .nil, .nil, nofun⟩, nofun, .nil rfl rfl, .nil, nofun, nofun,
    Nat.le_refl _⟩

/-- One more loop. -/
theorem snoc (h : f.Loopable guard plan ws next) (hr : f.Spaced (ws.map (·.region) ++ [r])) :
    f.Loopable guard plan (ws ++ [⟨r, r.code guard plan next⟩]) (r.code guard plan next).next := by
  have hblock : (r.code guard plan next).next.block = next.block + 2 := by
    unfold Region.code TurnGuard.test Plan.convert
    cases guard <;> dsimp only <;> split <;> rfl
  have hle := h.block_le
  refine ⟨h.shaped, h.bounded, ?_, fun w hw => ?_, ?_, ?_, fun b hb => ?_, fun b hb => ?_, ?_⟩
  · rwa [List.map_append]
  · rcases List.mem_append.1 hw with hw | hw
    · exact h.code w hw
    · exact ⟨next, by rw [List.mem_singleton.1 hw]⟩
  · rw [List.flatMap_append, List.flatMap_singleton]
    exact h.emits.append (r.emits_code guard plan next)
  · rw [List.flatMap_append, List.flatMap_singleton, List.nodup_append]
    refine ⟨h.fresh_nodup, ?_, ?_⟩
    · simp [Wrap.fresh, Region.code]
    · rintro b hb _ hb' rfl
      have hlt := h.fresh_lt b hb
      rcases List.mem_pair.1 hb' with rfl | rfl
      · exact absurd hlt (Nat.lt_irrefl _)
      · exact absurd hlt (Nat.not_lt.2 (Nat.le_succ _))
  · rw [List.flatMap_append, List.flatMap_singleton, List.mem_append] at hb
    rcases hb with hb | hb
    · exact h.fresh_ge b hb
    · rcases List.mem_pair.1 hb with rfl | rfl
      · exact hle
      · exact Nat.le_succ_of_le hle
  · rw [hblock]
    rw [List.flatMap_append, List.flatMap_singleton, List.mem_append] at hb
    rcases hb with hb | hb
    · exact (h.fresh_lt b hb).trans (Nat.lt_add_of_pos_right (Nat.succ_pos _))
    · rcases List.mem_pair.1 hb with rfl | rfl
      · exact Nat.lt_add_of_pos_right (Nat.succ_pos _)
      · exact Nat.lt_succ_self _
  · rw [hblock]
    exact Nat.le_add_right_of_le hle

/-- One more detour. -/
theorem detour_snoc (h : f.Loopable guard plan ws next)
    (hr : f.Spaced (ws.map (·.region) ++ [r])) (code : LoopCode) (x : BlockId) :
    r.detour code.header code.tail (detour ws x) = detour (ws ++ [.mk r code]) x := by
  have hall : f.Spaced ((ws ++ [Wrap.mk r code]).map (·.region)) := by rwa [List.map_append]
  have hlast : Wrap.mk r code ∈ ws ++ [Wrap.mk r code] :=
    List.mem_append_right _ (List.mem_singleton.2 rfl)
  have hregion := hr.region r (List.mem_append_right _ (List.mem_singleton.2 rfl))
  -- the blocks of the other loops are none of the blocks around the region
  have hne : ∀ {y}, y ∈ ws.flatMap Wrap.fresh → r.detour code.header code.tail y = y := by
    intro y hy
    refine Region.detour_of_ne ?_ ?_ <;> rintro rfl
    · exact h.fresh_not_mem hy (hregion.start_mem h.shaped)
    · exact h.fresh_not_mem hy (hregion.succ_mem h.shaped)
  rcases start_or_succ_or_not ws x with ⟨w, hw, rfl⟩ | ⟨w, hw, rfl⟩ | ⟨hstart, hsucc⟩
  · rw [detour_start h.spaced hw, detour_start hall (List.mem_append_left _ hw),
      hne (header_mem_fresh hw)]
  · rw [detour_succ h.spaced hw, detour_succ hall (List.mem_append_left _ hw),
      hne (tail_mem_fresh hw)]
  · rw [detour_of_ne hstart hsucc]
    by_cases hs : x = r.start
    · rw [Region.detour, if_pos hs, hs]
      exact (detour_start hall hlast).symm
    · by_cases ht : x = r.succ
      · rw [Region.detour, if_neg hs, if_pos ht, ht]
        exact (detour_succ hall hlast).symm
      · rw [Region.detour_of_ne hs ht, detour_of_ne]
        · intro w hw
          rcases List.mem_append.1 hw with hw | hw
          · exact hstart w hw
          · rw [List.mem_singleton.1 hw]
            exact Ne.symm hs
        · intro w hw
          rcases List.mem_append.1 hw with hw | hw
          · exact hsucc w hw
          · rw [List.mem_singleton.1 hw]
            exact Ne.symm ht

/-- The blocks of the other loops have nothing to do with one more loop. -/
theorem frame_fresh (h : f.Loopable guard plan ws next)
    (hr : f.Spaced (ws.map (·.region) ++ [r])) (code : LoopCode) (hw : w ∈ ws) {blk : Block}
    (hblk : blk = w.header ∨ blk = w.tail) :
    r.frame code.opening (code.headerBlock r) (code.tailBlock r) blk = [blk] := by
  have hlast : r ∈ ws.map (·.region) ++ [r] := List.mem_append_right _ (List.mem_singleton.2 rfl)
  have hold : w.region ∈ ws.map (·.region) ++ [r] :=
    List.mem_append_left _ (List.mem_map_of_mem hw)
  have hregion := hr.region r hlast
  have hmem : ∀ {x}, x ∈ ws.flatMap Wrap.fresh → x ≠ r.start ∧ x ≠ r.succ ∧ x ≠ r.pred := by
    intro x hx
    refine ⟨?_, ?_, ?_⟩ <;> rintro rfl
    · exact h.fresh_not_mem hx (hregion.start_mem h.shaped)
    · exact h.fresh_not_mem hx (hregion.succ_mem h.shaped)
    · exact h.fresh_not_mem hx hregion.pred_mem
  obtain ⟨hs, ht, hp⟩ := hmem (header_mem_fresh hw)
  obtain ⟨hs', ht', hp'⟩ := hmem (tail_mem_fresh hw)
  have hnd := hr.starts
  have hnd' := hr.succs
  rw [List.map_append, List.nodup_append] at hnd hnd'
  have hstart : w.region.start ≠ r.start :=
    hnd.2.2 _ (List.mem_map_of_mem (List.mem_map_of_mem hw)) _ (List.mem_singleton.2 rfl)
  have hsucc : w.region.succ ≠ r.succ :=
    hnd'.2.2 _ (List.mem_map_of_mem (List.mem_map_of_mem hw)) _ (List.mem_singleton.2 rfl)
  rcases hblk with rfl | rfl
  · refine Region.frame_eq_self hs ht hp ?_
    show Terminator.condBranch _ _ _ = Terminator.condBranch _ _ _
    rw [Region.detour_of_ne hstart (hr.disjoint _ hold _ hlast), Region.detour_of_ne hs' ht']
  · refine Region.frame_eq_self hs' ht' hp' ?_
    show Terminator.condBranch _ _ _ = Terminator.condBranch _ _ _
    rw [Region.detour_of_ne (hr.disjoint _ hlast _ hold).symm hsucc, Region.detour_of_ne hs ht]

/-- What one more loop makes of a block from before. -/
theorem frame_inner (h : f.Loopable guard plan ws next)
    (hr : f.Spaced (ws.map (·.region) ++ [r])) (code : LoopCode) (blk : Block) :
    r.frame code.opening (code.headerBlock r) (code.tailBlock r) (blk.inner ws) =
      (if r.start = blk.id then [code.headerBlock r] else []) ++
        (if r.succ = blk.id then [code.tailBlock r] else []) ++
        [blk.inner (ws ++ [.mk r code])] := by
  have hterm : (blk.inner ws).term.mapTargets (r.detour code.header code.tail) =
      blk.term.mapTargets (detour (ws ++ [.mk r code])) := by
    rw [Block.inner, Terminator.mapTargets_mapTargets]
    congr 1
    funext x
    exact h.detour_snoc hr code x
  have hinstrs : ((ws ++ [Wrap.mk r code]).filter fun w => w.region.pred = blk.id).flatMap
      (·.code.opening) = (ws.filter fun w => w.region.pred = blk.id).flatMap (·.code.opening) ++
        if blk.id = r.pred then code.opening else [] := by
    rw [List.filter_append, List.flatMap_append, List.filter_singleton]
    by_cases hp : r.pred = blk.id
    · simp [hp]
    · simp [hp, Ne.symm hp]
  rw [Block.inner, Block.inner] at *
  unfold Region.frame
  dsimp only at hterm ⊢
  rw [show (code.headerBlock r).id = code.header from rfl,
    show (code.tailBlock r).id = code.tail from rfl, hterm, hinstrs, List.append_assoc blk.instrs]
  congr 2 <;> simp only [eq_comm]

/-- One more loop around a region is a loop around one more region. -/
theorem wrapped_looped (h : f.Loopable guard plan ws next)
    (hr : f.Spaced (ws.map (·.region) ++ [r])) (code : LoopCode) :
    (f.looped ws next).wrapped r code = f.looped (ws ++ [.mk r code]) code.next := by
  have hlast : r ∈ ws.map (·.region) ++ [r] := List.mem_append_right _ (List.mem_singleton.2 rfl)
  rw [wrapped, looped, expand_expand, looped]
  refine expand_congr fun blk _ => ?_
  have hfresh : ∀ bs : List Block, (∀ x ∈ bs, ∃ w ∈ ws, x = w.header ∨ x = w.tail) →
      bs.flatMap (r.frame code.opening (code.headerBlock r) (code.tailBlock r)) = bs := by
    intro bs hbs
    refine (List.flatMap_congr fun x hx => ?_).trans (List.flatMap_singleton' bs)
    obtain ⟨w, hw, hx⟩ := hbs x hx
    exact h.frame_fresh hr code hw hx
  rw [Block.looped, List.flatMap_append, List.flatMap_singleton, h.frame_inner hr, hfresh,
    Block.looped, List.filter_append, List.filter_append, List.map_append, List.map_append,
    List.filter_singleton, List.filter_singleton]
  · by_cases hs : r.start = blk.id
    · -- no barrier stands at the start of a region
      have hnone : (ws.filter fun w => w.region.succ = blk.id) = [] := by
        rw [List.filter_eq_nil_iff]
        intro w hw heq
        exact hr.disjoint _ hlast _ (List.mem_append_left _ (List.mem_map_of_mem hw))
          (hs.trans (of_decide_eq_true heq).symm)
      have ht : r.succ ≠ blk.id := fun ht => hr.disjoint _ hlast _ hlast (hs.trans ht.symm)
      rw [hnone]
      simp only [hs, ht, decide_true, decide_false, cond_true, cond_false, if_true, if_false]
      simp only [List.map_nil, List.append_nil, List.map_cons, List.append_assoc]
      rfl
    · by_cases ht : r.succ = blk.id
      · simp only [hs, ht, decide_true, decide_false, cond_true, cond_false, if_true, if_false]
        simp only [List.map_nil, List.append_nil, List.map_cons, List.append_assoc, List.nil_append]
        rfl
      · simp only [hs, ht, decide_false, cond_false, if_false, List.map_nil, List.append_nil]
        simp only [List.append_assoc, List.nil_append]
  · intro x hx
    rcases List.mem_append.1 hx with hx | hx
    · obtain ⟨w, hw, rfl⟩ := List.mem_map.1 hx
      exact ⟨w, (List.mem_filter.1 hw).1, Or.inl rfl⟩
    · obtain ⟨w, hw, rfl⟩ := List.mem_map.1 hx
      exact ⟨w, (List.mem_filter.1 hw).1, Or.inr rfl⟩

/-! ### Blocks of the function with loops -/

theorem mem_looped (h : f.Loopable guard plan ws next) {new : Block} :
    new ∈ (f.looped ws next).blocks ↔ (∃ w ∈ ws, new = w.header ∨ new = w.tail) ∨
      ∃ blk ∈ f.blocks, new = blk.inner ws := by
  rw [looped, mem_expand_blocks]
  constructor
  · rintro ⟨blk, hblk, hnew⟩
    rcases List.mem_append.1 hnew with hnew | hnew
    · refine Or.inl ?_
      rcases List.mem_append.1 hnew with hnew | hnew
      · obtain ⟨w, hw, rfl⟩ := List.mem_map.1 hnew
        exact ⟨w, (List.mem_filter.1 hw).1, Or.inl rfl⟩
      · obtain ⟨w, hw, rfl⟩ := List.mem_map.1 hnew
        exact ⟨w, (List.mem_filter.1 hw).1, Or.inr rfl⟩
    · exact Or.inr ⟨blk, hblk, List.mem_singleton.1 hnew⟩
  · rintro (⟨w, hw, rfl | rfl⟩ | ⟨blk, hblk, rfl⟩)
    · obtain ⟨blk, hblk, hid⟩ := List.mem_map.1 (h.start_mem hw)
      refine ⟨blk, hblk, List.mem_append_left _ (List.mem_append_left _ (List.mem_map_of_mem ?_))⟩
      exact List.mem_filter.2 ⟨hw, decide_eq_true hid.symm⟩
    · obtain ⟨blk, hblk, hid⟩ := List.mem_map.1 (h.succ_mem hw)
      refine ⟨blk, hblk, List.mem_append_left _ (List.mem_append_right _ (List.mem_map_of_mem ?_))⟩
      exact List.mem_filter.2 ⟨hw, decide_eq_true hid.symm⟩
    · exact ⟨blk, hblk, List.mem_append_right _ (List.mem_singleton.2 rfl)⟩

/-- The block from before. -/
theorem block?_old (h : f.Loopable guard plan ws next) (hb : f.block? b = some blk) :
    (f.looped ws next).block? b = some (blk.inner ws) := by
  obtain ⟨hblk, rfl⟩ := block?_mem hb
  exact (block?_eq_some_iff h.blockIds_nodup).2 ⟨h.mem_looped.2 (Or.inr ⟨blk, hblk, rfl⟩), rfl⟩

theorem block?_header (h : f.Loopable guard plan ws next) (hw : w ∈ ws) :
    (f.looped ws next).block? w.code.header = some w.header :=
  (block?_eq_some_iff h.blockIds_nodup).2 ⟨h.mem_looped.2 (Or.inl ⟨w, hw, Or.inl rfl⟩), rfl⟩

theorem block?_tail (h : f.Loopable guard plan ws next) (hw : w ∈ ws) :
    (f.looped ws next).block? w.code.tail = some w.tail :=
  (block?_eq_some_iff h.blockIds_nodup).2 ⟨h.mem_looped.2 (Or.inl ⟨w, hw, Or.inr rfl⟩), rfl⟩

theorem mem_blockIds (h : f.Loopable guard plan ws next) : x ∈ (f.looped ws next).blockIds ↔
    (∃ w ∈ ws, x = w.code.header ∨ x = w.code.tail) ∨ x ∈ f.blockIds := by
  rw [h.blockIds_perm.mem_iff, List.mem_append, List.mem_flatMap]
  simp only [Wrap.fresh, List.mem_pair]

/-! ### All loops -/

/-- No phi node stands in front of a region. -/
theorem plain_opening (h : f.Loopable guard plan ws next) (hw : w ∈ ws) :
    ∀ i ∈ w.code.opening, i.isPhi = false := by
  obtain ⟨c, hc⟩ := h.code w hw
  rw [hc]
  show ∀ i ∈ Region.opening _ _, _
  simp [Region.opening, Counters.emit, Instr.isPhi]

theorem plain_inner (h : f.Loopable guard plan ws next)
    (hplain : ∀ i ∈ blk.instrs, i.isPhi = false) :
    ∀ i ∈ (blk.inner ws).instrs, i.isPhi = false := by
  intro i hi
  rcases List.mem_append.1 hi with hi | hi
  · exact hplain i hi
  · obtain ⟨w, hw, hi⟩ := List.mem_flatMap.1 hi
    exact h.plain_opening (List.mem_filter.1 hw).1 i hi

/-- A region that does not touch the others can be wrapped. -/
theorem wrappable (h : f.Loopable guard plan ws next)
    (hr : f.Spaced (ws.map (·.region) ++ [r])) : Region.Wrappable (f.looped ws next) r := by
  have hlast : r ∈ ws.map (·.region) ++ [r] := List.mem_append_right _ (List.mem_singleton.2 rfl)
  have hregion := hr.region r hlast
  have hn := h.bounded_looped
  have hplain : ∀ x, x ∈ f.blockIds →
      (∀ blk, f.block? x = some blk → ∀ i ∈ blk.instrs, i.isPhi = false) →
      ∀ blk, (f.looped ws next).block? x = some blk → ∀ i ∈ blk.instrs, i.isPhi = false := by
    intro x hx hplain blk hblk
    obtain ⟨old, hold⟩ := mem_blockIds_iff.1 hx
    rw [h.block?_old hold] at hblk
    cases hblk
    exact h.plain_inner (hplain old hold)
  have hold : ∀ {x}, x ∈ f.blockIds → x ∈ (f.looped ws next).blockIds := fun hx =>
    h.mem_blockIds.2 (Or.inr hx)
  refine ⟨hn, ⟨h.blockIds_nodup, hold hregion.pred_mem, hold (hregion.start_mem h.shaped),
    hold (hregion.succ_mem h.shaped), hregion.start_ne_succ, hn.fresh (Nat.le_refl _),
    hn.fresh (Nat.le_succ _), ?_⟩, hr.pred_ne_start r hlast, hr.pred_ne_succ r hlast,
    hplain _ (hregion.start_mem h.shaped) hregion.plain_start,
    hplain _ (hregion.succ_mem h.shaped) hregion.plain_succ⟩
  rw [Ne, BlockId.mk.injEq]
  exact (Nat.succ_ne_self _).symm

/-- Wrapping one region after another succeeds. -/
theorem apply_wraps (hr : f.Spaced (ws.map (·.region) ++ rs))
    (h : f.Loopable guard plan ws next) : ∃ ws' next',
      (rs.mapM fun r : Region => r.wrap guard plan).apply (f.looped ws next) =
        (.ok (ws'.map Wrap.loop), f.looped (ws ++ ws') next') ∧
      f.Loopable guard plan (ws ++ ws') next' ∧ ws'.map (·.region) = rs := by
  induction rs generalizing ws next with
  | nil => exact ⟨[], next, by rw [List.append_nil]; rfl, by rwa [List.append_nil], rfl⟩
  | cons r rs ih =>
    have hfirst : f.Spaced (ws.map (·.region) ++ [r]) := by
      rw [List.append_cons] at hr
      exact hr.of_append
    have hwrap := Region.apply_wrap (h.wrappable hfirst) guard plan
    rw [show (f.looped ws next).next = next from rfl, h.wrapped_looped hfirst] at hwrap
    obtain ⟨ws', next', hrest, hloop, hregions⟩ := ih (by
      rwa [List.map_append, List.map_singleton, ← List.append_cons]) (h.snoc hfirst)
    refine ⟨⟨r, r.code guard plan next⟩ :: ws', next', ?_, by rwa [List.append_cons], ?_⟩
    · rw [List.mapM_cons]
      refine (Edit.apply_bind_ok hwrap).trans ((Edit.apply_bind_ok hrest).trans ?_)
      rw [Edit.apply_pure, List.append_assoc, List.singleton_append]
      rfl
    · rw [List.map_cons, hregions]

end Loopable

end Func

end BarrierLowering
