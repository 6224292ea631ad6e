import BarrierLowering.Proofs.Lowered

/-!
# The shape of a lowered kernel

A planned kernel is always lowered, with one loop for each barrier. The regions are described
before the first loop is built, and each loop bends edges of its neighbours; still every loop
has its shape in the final function, whatever the order of the blocks and the cycles among them.

## Main definitions

* `Edit.Adds` — an edit that adds a number of blocks.
* `Func.HasLoop` — the shape of a loop around the region in front of a barrier.

## Main results

* `Func.Loopable.edge_into_start`, `Func.Loopable.edge_into_succ` — a region and its barrier are
  entered from the loop only.
* `Plan.adds_buildRegions` — how many blocks a kernel gets when it is divided.
* `Func.lowerKernel_loops` — the loops of a lowered kernel, and the number of its blocks.
-/

namespace BarrierLowering

/-! ### Counting blocks -/

/-- A split makes one block out of two. -/
theorem length_cutBlock {b fresh : BlockId} {index : Nat} {label : String} {blks : List Block}
    (h : ∃ blk ∈ blks, blk.id = b) :
    (cutBlock b index fresh label blks).length = blks.length + 1 := by
  induction blks with
  | nil => simp at h
  | cons blk blks ih =>
    rw [cutBlock]
    by_cases hid : blk.id = b
    · rw [if_pos hid]
      simp
    · rw [if_neg hid, List.length_cons, List.length_cons, ih]
      simpa [hid] using h

namespace Edit

variable {ε ε' α β : Type} {e : Edit ε α} {k : α → Edit ε β} {m n : Nat}

/-- An edit that adds `n` blocks to a function whenever it succeeds. -/
def Adds (e : Edit ε α) (n : Nat) : Prop :=
  ∀ f a g, e.apply f = (.ok a, g) → g.blocks.length = f.blocks.length + n

theorem adds_pure (a : α) : (pure a : Edit ε α).Adds 0 := by
  intro f a' g h
  rw [apply_pure] at h
  cases h
  rfl

theorem adds_require (error : ε) (lookup : Func → Option α) : (require error lookup).Adds 0 := by
  intro f a g h
  rw [apply_require] at h
  split at h <;> cases h
  rfl

/-- The blocks that two edits in a row add. -/
theorem Adds.bind (he : e.Adds m) (hk : ∀ a, (k a).Adds n) : (e >>= k).Adds (m + n) := by
  intro f b g h
  rw [apply_bind] at h
  split at h
  · next a f' hf' => rw [hk a f' b g h, he f a f' hf', Nat.add_assoc]
  · cases h

theorem Adds.lift {e : Edit EditError α} (he : e.Adds n) : (lift e).Adds n := by
  intro f a g h
  rw [apply_lift] at h
  split at h
  · next a' f' hf' =>
    cases h
    exact he f _ _ hf'
  · cases h

theorem Adds.mapM {γ : Type} {e : γ → Edit ε α} (he : ∀ c, (e c).Adds n) (l : List γ) :
    (l.mapM e).Adds (l.length * n) := by
  induction l with
  | nil => exact (Nat.zero_mul n).symm ▸ adds_pure []
  | cons c l ih =>
    rw [List.mapM_cons]
    have hcons := (he c).bind fun a => ih.bind fun as => adds_pure (ε := ε) (a :: as)
    rw [List.length_cons, Nat.succ_mul, Nat.add_comm]
    exact hcons

theorem adds_splitLabeled (b : BlockId) (index : Nat) (label : String) :
    (splitLabeled b index label).Adds 1 := by
  intro f fresh g h
  obtain ⟨blk, hb, -, -, hblocks⟩ := splitLabeled_eq_ok h
  obtain ⟨hblk, hid⟩ := Func.block?_mem hb
  have hmem : ∃ blk ∈ (f.retarget b f.fresh).blocks, blk.id = b :=
    ⟨_, List.mem_map_of_mem hblk, hid⟩
  rw [hblocks, length_cutBlock hmem, Func.retarget, List.length_map]

theorem adds_split (b : BlockId) (index : Nat) : (split b index).Adds 1 :=
  (adds_require _ _).bind fun _ => adds_splitLabeled _ _ _

/-- What is isolated gets a block of its own, and so does what stands in front of it. -/
theorem adds_isolate (first last : InstrId) (label : String) :
    (isolate first last label).Adds 2 :=
  (adds_require _ _).bind fun _ => (adds_split _ _).bind fun _ =>
    (adds_require _ _).bind fun _ => adds_splitLabeled _ _ _

end Edit

theorem Plan.adds_buildRegions (plan : Plan) :
    plan.buildRegions.Adds (2 + plan.barriers.length * 2) := by
  -- reading the regions off leaves the function as it is
  have hread : ∀ queries homes, (do
      liftExcept ((← get).regionsFrom queries (plan.barriers.zip homes)) :
        Edit LoweringError (List Region)).Adds 0 := by
    intro queries homes f regions g h
    rw [Edit.apply_bind, Edit.apply_get] at h
    dsimp only at h
    cases hr : f.regionsFrom queries (plan.barriers.zip homes) with
    | error cause =>
      rw [hr] at h
      cases h
    | ok regions' =>
      rw [hr] at h
      cases h
      rfl
  exact (Edit.adds_isolate _ _ _).lift.bind fun queries =>
    (Edit.Adds.mapM (fun i => (Edit.adds_isolate i i "cg.sync").lift) plan.barriers).bind
      fun homes => hread queries homes

/-! ### The shape of a loop -/

/-- What the code of a loop counts with. -/
theorem Region.exists_code_counter (r : Region) (guard : TurnGuard) (plan : Plan) (c : Counters) :
    ∃ zero one next phi rest, (r.code guard plan c).head = phi :: rest ∧
      phi.result = some (r.code guard plan c).induction ∧
      phi.op = .phi [(r.pred, zero), ((r.code guard plan c).tail, next)] ∧
      (∃ i ∈ (r.code guard plan c).opening,
        i.result = some zero ∧ i.op = .const (.int 0 plan.sizeTy)) ∧
      (∃ i ∈ (r.code guard plan c).back,
        i.result = some one ∧ i.op = .const (.int 1 plan.sizeTy)) ∧
      ∃ i ∈ (r.code guard plan c).back, i.result = some next ∧
        i.op = .binary .add (r.code guard plan c).induction one :=
  ⟨_, _, _, _, _, rfl, rfl, rfl, ⟨_, List.mem_cons_self, rfl, rfl⟩,
    ⟨_, List.mem_cons_self, rfl, rfl⟩, ⟨_, List.mem_cons_of_mem _ List.mem_cons_self, rfl, rfl⟩⟩

namespace Func

/-- A block defines a value by the given operation. -/
def Computes (g : Func) (b : BlockId) (v : ValueId) (op : Op) : Prop :=
  ∃ blk, g.block? b = some blk ∧ ∃ i ∈ blk.instrs, i.result = some v ∧ i.op = op

/-- A loop stands around the region in front of a barrier. It counts from zero at type `ty`: its
phi node takes zero from the block in front of the loop, and one more than before from the
tail. -/
structure HasLoop (g : Func) (ty : Ty) (barrier : Instr) (l : TurnLoop) : Prop where
  key : barrier.id = l.key
  /-- The loop is left to the block that the barrier opens. -/
  opens : ∃ blk, g.block? l.succ = some blk ∧ blk.instrs.head? = some barrier
  leaves_pred : g.successors l.pred = [l.header]
  enters_header : (g.predecessors l.header).Perm [l.pred, l.tail]
  leaves_header : g.successors l.header = [l.body, l.tail]
  enters_body : g.predecessors l.body = [l.header]
  leaves_tail : g.successors l.tail = [l.succ, l.header]
  enters_succ : g.predecessors l.succ = [l.tail]
  counts : ∃ zero one next,
    (∃ blk phi rest, g.block? l.header = some blk ∧ blk.instrs = phi :: rest ∧
      phi.result = some l.induction ∧ phi.op = .phi [(l.pred, zero), (l.tail, next)]) ∧
    g.Computes l.pred zero (.const (.int 0 ty)) ∧ g.Computes l.tail one (.const (.int 1 ty)) ∧
    g.Computes l.tail next (.binary .add l.induction one)

variable {f g : Func} {config : Config} {guard : TurnGuard} {plan : Plan} {ws : List Wrap}
  {w : Wrap} {next : Counters} {a b c : BlockId} {front first : BlockId}

/-- The successors of a block that is left over one edge. -/
theorem successors_eq_of_edge (h : ∀ x, f.graph.Edge a x ↔ x = c) : f.successors a = [c] := by
  have hnd : (f.successors a).Nodup := by
    rw [← succs_graph]
    exact f.graph.nodup_succs a
  refine List.perm_singleton.1 ((List.perm_ext_iff_of_nodup hnd (List.nodup_singleton c)).2 ?_)
  intro x
  rw [← succs_graph, List.mem_singleton]
  exact h x

namespace Loopable

/-- The block in front of a region leads to the header only. -/
theorem edge_pred (h : f.Loopable guard plan ws next) (hw : w ∈ ws) :
    (f.looped ws next).graph.Edge w.region.pred b ↔ b = w.code.header := by
  rw [h.edge_old (h.pred_mem hw)]
  constructor
  · rintro ⟨t, hedge, rfl⟩
    rw [((h.isRegion hw).leaves t).1 hedge, detour_start h.spaced hw]
  · rintro rfl
    exact ⟨w.region.start, ((h.isRegion hw).leaves _).2 rfl, detour_start h.spaced hw⟩

/-- A region is entered from the header of its loop only. -/
theorem edge_into_start (h : f.Loopable guard plan ws next) (hw : w ∈ ws) :
    (f.looped ws next).graph.Edge a w.region.start ↔ a = w.code.header := by
  constructor
  · intro hedge
    rcases h.edge_into_cases (h.start_mem hw) hedge with
      ⟨w', hw', rfl, heq⟩ | ⟨w', hw', -, heq⟩ | ⟨-, hstart, -⟩
    · rw [h.eq_of_start hw' hw heq]
    · exact absurd heq.symm
        (h.spaced.disjoint _ (List.mem_map_of_mem hw) _ (List.mem_map_of_mem hw'))
    · exact absurd rfl (hstart w hw)
  · rintro rfl
    exact (h.edge_header hw).2 (Or.inl rfl)

/-- The block of a barrier is entered from the tail of its loop only. -/
theorem edge_into_succ (h : f.Loopable guard plan ws next) (hw : w ∈ ws) :
    (f.looped ws next).graph.Edge a w.region.succ ↔ a = w.code.tail := by
  constructor
  · intro hedge
    rcases h.edge_into_cases (h.succ_mem hw) hedge with
      ⟨w', hw', -, heq⟩ | ⟨w', hw', rfl, heq⟩ | ⟨-, -, hsucc⟩
    · exact absurd heq
        (h.spaced.disjoint _ (List.mem_map_of_mem hw') _ (List.mem_map_of_mem hw))
    · rw [h.eq_of_succ hw' hw heq]
    · exact absurd rfl (hsucc w hw)
  · rintro rfl
    exact (h.edge_tail hw).2 (Or.inl rfl)

/-- The header is entered from the block in front of the region and from the tail, nowhere else. -/
theorem predecessors_header (h : f.Loopable guard plan ws next) (hw : w ∈ ws) :
    ((f.looped ws next).predecessors w.code.header).Perm [w.region.pred, w.code.tail] := by
  have hne : w.region.pred ≠ w.code.tail := fun heq => h.tail_not_mem hw (heq ▸ h.pred_mem hw)
  refine predecessors_perm_of_edge h.blockIds_nodup (by simpa using hne) fun a => ?_
  rw [List.mem_pair]
  exact h.edge_into_header hw

theorem successors_header (h : f.Loopable guard plan ws next) (hw : w ∈ ws) :
    (f.looped ws next).successors w.code.header = [w.region.start, w.code.tail] := by
  have hne : w.region.start ≠ w.code.tail := fun heq => h.tail_not_mem hw (heq ▸ h.start_mem hw)
  have hnd : [w.region.start, w.code.tail].Nodup := by simpa using hne
  exact successors_eq_targets (h.block?_header hw) hnd

theorem successors_tail (h : f.Loopable guard plan ws next) (hw : w ∈ ws) :
    (f.looped ws next).successors w.code.tail = [w.region.succ, w.code.header] := by
  have hne : w.region.succ ≠ w.code.header := fun heq => h.header_not_mem hw (heq ▸ h.succ_mem hw)
  have hnd : [w.region.succ, w.code.header].Nodup := by simpa using hne
  exact successors_eq_targets (h.block?_tail hw) hnd

/-- The code of a loop counts the iterations, starting from zero. -/
theorem exists_counter (h : f.Loopable guard plan ws next) (hw : w ∈ ws) : ∃ zero one next',
    (∃ blk phi rest, (f.looped ws next).block? w.code.header = some blk ∧
      blk.instrs = phi :: rest ∧ phi.result = some w.code.induction ∧
      phi.op = .phi [(w.region.pred, zero), (w.code.tail, next')]) ∧
    (f.looped ws next).Computes w.region.pred zero (.const (.int 0 plan.sizeTy)) ∧
    (f.looped ws next).Computes w.code.tail one (.const (.int 1 plan.sizeTy)) ∧
    (f.looped ws next).Computes w.code.tail next' (.binary .add w.code.induction one) := by
  -- the numbers of the code's values are those that were free when it was written
  obtain ⟨c, hc⟩ := h.code w hw
  obtain ⟨zero, one, next', phi, rest, hhead, hresult, hop, ⟨i, hi, hzero⟩, hone, hnext⟩ :=
    w.region.exists_code_counter guard plan c
  rw [← hc] at hhead hresult hop hi hone hnext
  have hback : ∀ {v op}, (∃ i ∈ w.code.back, i.result = some v ∧ i.op = op) →
      (f.looped ws next).Computes w.code.tail v op := fun hi => ⟨_, h.block?_tail hw, hi⟩
  refine ⟨zero, one, next', ⟨_, phi, rest, h.block?_header hw, hhead, hresult, hop⟩, ?_,
    hback hone, hback hnext⟩
  -- the code in front of the loop is appended to the block there
  obtain ⟨blk, hblk⟩ := mem_blockIds_iff.1 (h.pred_mem hw)
  have hpred : w ∈ ws.filter fun w => w.region.pred = blk.id :=
    List.mem_filter.2 ⟨hw, decide_eq_true (block?_mem hblk).2.symm⟩
  exact ⟨_, h.block?_old hblk, i,
    List.mem_append_right _ (List.mem_flatMap.2 ⟨w, hpred, hi⟩), hzero⟩

/-- A function gets two blocks for each loop. -/
theorem length_blocks (h : f.Loopable guard plan ws next) :
    (f.looped ws next).blocks.length = f.blocks.length + ws.length * 2 := by
  have hlen := h.blockIds_perm.length_eq
  have hfresh : (ws.flatMap Wrap.fresh).length = ws.length * 2 := by
    simp [List.length_flatMap, Wrap.fresh]
  rw [List.length_append, hfresh, blockIds, blockIds, List.length_map, List.length_map] at hlen
  omega

/-- Every loop of a function with loops has its shape. -/
theorem hasLoop (h : f.Loopable guard plan ws next) (hw : w ∈ ws) {barrier : Instr}
    (hkey : barrier.id = w.region.key)
    (hopens : ∃ blk, f.block? w.region.succ = some blk ∧ blk.instrs.head? = some barrier) :
    (f.looped ws next).HasLoop plan.sizeTy barrier w.loop where
  key := hkey
  opens := by
    obtain ⟨blk, hblk, hhead⟩ := hopens
    refine ⟨_, h.block?_old hblk, ?_⟩
    rw [Block.inner, List.head?_append, hhead]
    rfl
  leaves_pred := successors_eq_of_edge fun _ => h.edge_pred hw
  enters_header := h.predecessors_header hw
  leaves_header := h.successors_header hw
  enters_body := predecessors_eq_singleton h.blockIds_nodup fun _ => h.edge_into_start hw
  leaves_tail := h.successors_tail hw
  enters_succ := predecessors_eq_singleton h.blockIds_nodup fun _ => h.edge_into_succ hw
  counts := h.exists_counter hw

end Loopable

/-! ### Lowered kernels -/

theorem Linked.head_pred {rs : List Region} (h : f.Linked b rs) : ∀ r ∈ rs.head?, r.pred = b := by
  cases h with
  | nil => nofun
  | @cons r rs _ _ =>
    intro r' hr'
    rw [Option.some.inj hr']

/-- Regions in a row begin where the one before them ended. -/
theorem Linked.isChain {rs : List Region} (h : f.Linked b rs) :
    rs.IsChain fun r r' => r'.pred = r.succ := by
  induction h with
  | nil => exact List.isChain_nil
  | cons _ hrs ih => exact List.isChain_cons.2 ⟨hrs.head_pred, ih⟩

/-- **A kernel with a plan is lowered, and the loops have their shape.**  There is one loop for
each barrier, in the order of the plan, and each begins at the barrier of the one before. -/
theorem lowerKernel_loops (f : Func) (config : Config) (plan : Plan) (hf : f.defects = [])
    (hn : f.Numbered) (hplan : f.plan config = .ok plan) (hkeep : config.eraseBarriers = false) :
    ∃ loops g, (lowerKernel config).apply f = (.ok (.transformed loops), g) ∧
      loops.map (·.key) = plan.barriers ∧
      loops.IsChain (fun l l' => l'.pred = l.succ) ∧
      (∀ l ∈ loops, ∃ barrier ∈ f.instrs, barrier.kind config.nameRule = .barrier ∧
        g.HasLoop plan.sizeTy barrier l) ∧
      g.blocks.length = f.blocks.length + (2 + 4 * plan.barriers.length) := by
  have hshaped := (defects_eq_nil_iff_shaped.1 hf).1
  have hdraft := (plan_eq_ok_iff.1 hplan).1
  obtain ⟨g, front, first, ws, next, hlowered, hregions, hwraps⟩ :=
    Plan.exists_lowered hshaped hn hdraft
  have hcarry := Plan.apply_carryOut_of_wraps hkeep hregions hwraps
  have hkeys := hlowered.sequenced.keys
  refine ⟨ws.map Wrap.loop, g.looped ws next, apply_lowerKernel_of_ok hplan hcarry, ?_, ?_, ?_, ?_⟩
  · rw [← hkeys, List.map_map, List.map_map]
    rfl
  · have hchain := hlowered.sequenced.linked.isChain
    rw [List.isChain_map] at hchain ⊢
    exact hchain
  · intro l hl
    obtain ⟨w, hw, rfl⟩ := List.mem_map.1 hl
    have hregion : w.region ∈ ws.map (·.region) := List.mem_map_of_mem hw
    obtain ⟨label, x, back, hblk, hx⟩ := hlowered.sequenced.holds _ hregion
    have hxmem : x ∈ f.instrs := by
      rw [← hlowered.cuts.same.1]
      exact List.mem_flatMap.2 ⟨_, (block?_mem hblk).1, List.mem_singleton.2 rfl⟩
    -- the barrier of the plan is the one that was isolated
    obtain ⟨y, hy, hid, hkind⟩ := (inOrder_of_draft hshaped.blocks_nodup hdraft).exists_barrier
      (hkeys ▸ List.mem_map_of_mem hregion)
    obtain rfl : x = y := List.inj_on_of_nodup_map hn.instrs_nodup hxmem hy (hx.trans hid.symm)
    exact ⟨x, hxmem, hkind, hlowered.loopable.hasLoop hw hx ⟨_, hblk, rfl⟩⟩
  · have hcount : ws.length = plan.barriers.length := by
      rw [← hkeys, List.length_map, List.length_map]
    rw [hlowered.loopable.length_blocks, plan.adds_buildRegions f _ g hregions, hcount]
    omega

/-- A kernel of one block, in which the threads wait twice. -/
def waitingTwice : Func where
  name := "waitingTwice"
  convention := .kernel
  returnTy := .void
  params := []
  blocks :=
    [⟨⟨0⟩, "entry",
      [⟨⟨0⟩, some ⟨0⟩, .call "__hip_cg_thread_rank" [], .i32⟩,
        ⟨⟨1⟩, some ⟨1⟩, .call "__hip_cg_group_size" [], .i32⟩,
        ⟨⟨2⟩, none, .call "__hip_cg_sync" [], .void⟩,
        ⟨⟨3⟩, none, .call "__hip_cg_sync" [], .void⟩],
      .ret none⟩]
  next := ⟨1, 2, 4⟩

theorem defects_waitingTwice : waitingTwice.defects = [] := by cbv

theorem numbered_waitingTwice : waitingTwice.Numbered :=
  ⟨by decide, by decide, by decide, by decide, by decide⟩

/-- The plan for this kernel, whether the barriers are removed in the end or not. -/
theorem plan_waitingTwice (erase : Bool) :
    waitingTwice.plan { Config.standard with eraseBarriers := erase } =
      .ok ⟨⟨⟨0⟩, ⟨1⟩, ⟨0⟩, ⟨1⟩, .i32, .i32⟩, [⟨2⟩, ⟨3⟩],
        [⟨⟨2⟩, ⟨0⟩, .simple⟩, ⟨⟨3⟩, ⟨0⟩, .simple⟩], 1⟩ := by
  cases erase <;> cbv

/-- Two barriers in one block make two loops, one behind the other, and eleven blocks. -/
theorem lowerKernel_loops_waitingTwice : waitingTwice.defects = [] ∧ waitingTwice.Numbered ∧
    ∃ plan, waitingTwice.plan .standard = .ok plan ∧ Config.standard.eraseBarriers = false ∧
      ∃ l l' g, (lowerKernel .standard).apply waitingTwice = (.ok (.transformed [l, l']), g) ∧
        l.key = ⟨2⟩ ∧ l'.key = ⟨3⟩ ∧ l'.pred = l.succ ∧ g.predecessors l'.body = [l'.header] ∧
        g.blocks.length = 11 := by
  obtain ⟨loops, g, happly, hkeys, hchain, hshape, hlength⟩ :=
    lowerKernel_loops waitingTwice .standard _ defects_waitingTwice numbered_waitingTwice
      (plan_waitingTwice false) rfl
  obtain ⟨l, rest, rfl, hkey, hrest⟩ := List.map_eq_cons_iff.1 hkeys
  obtain ⟨l', rest', rfl, hkey', hrest'⟩ := List.map_eq_cons_iff.1 hrest
  obtain rfl := List.map_eq_nil_iff.1 hrest'
  obtain ⟨barrier, -, -, hloop⟩ := hshape l' (List.mem_cons_of_mem _ List.mem_cons_self)
  exact ⟨defects_waitingTwice, numbered_waitingTwice, _, plan_waitingTwice false, rfl, l, l', g,
    happly, hkey, hkey', (List.isChain_cons_cons.1 hchain).1, hloop.enters_body, hlength⟩

end Func

end BarrierLowering
