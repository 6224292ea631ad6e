import BarrierLowering.Proofs.Wraps

/-!
# The shape of a function with loops

A loop is entered in front of its region and left behind it. Its code reads only what it has
computed itself, and the rank and the size of the group, so that references still resolve.

## Main definitions

* `Closed` — instructions that read only what is known or was computed by them.
* `LoopCode.Regular` — what there is to know about the code of a loop.

## Main results

* `Func.Loopable.edge_old`, `Func.Loopable.edge_header`, `Func.Loopable.edge_tail` — the edges of
  a function with loops.
* `Func.Loopable.shaped_looped` — a function with loops has the right shape.
-/

namespace BarrierLowering

/-! ### What the code of a loop reads -/

/-- Instructions that read only what is known or was computed by those before. Phi nodes read on
the edges, not in the block. -/
def Closed (known : List ValueId) : List Instr → Prop
  | [] => True
  | i :: is => (i.isPhi = false → ∀ v ∈ i.op.operands, v ∈ known) ∧
      Closed (known ++ i.result.toList) is

theorem Closed.mem {known : List ValueId} {is js : List Instr} {i : Instr} {v : ValueId}
    (h : Closed known (is ++ i :: js)) (hphi : i.isPhi = false) (hv : v ∈ i.op.operands) :
    v ∈ known ∨ ∃ j ∈ is, j.result = some v := by
  induction is generalizing known with
  | nil => exact Or.inl (h.1 hphi v hv)
  | cons j is ih =>
    rcases ih h.2 with hknown | ⟨k, hk, hres⟩
    · rcases List.mem_append.1 hknown with hknown | hj
      · exact Or.inl hknown
      · exact Or.inr ⟨j, List.mem_cons_self, Option.mem_toList.1 hj⟩
    · exact Or.inr ⟨k, List.mem_cons_of_mem _ hk, hres⟩

/-- What holds of all that is known and of all results holds of all that is read. -/
theorem Closed.forall_operands {known : List ValueId} {is : List Instr} {P : ValueId → Prop}
    (h : Closed known is) (hplain : ∀ i ∈ is, i.isPhi = false) (hknown : ∀ v ∈ known, P v)
    (hresult : ∀ i ∈ is, ∀ v, i.result = some v → P v) : ∀ i ∈ is, ∀ v ∈ i.op.operands, P v := by
  intro i hi v hv
  obtain ⟨js, ks, rfl⟩ := List.append_of_mem hi
  rcases h.mem (hplain i hi) hv with hv | ⟨j, hj, hres⟩
  · exact hknown v hv
  · exact hresult j (List.mem_append_left _ hj) v hres

/-- What there is to know about the code of a loop, apart from what it computes: `zero` and `next`
are the values that the phi node takes. -/
structure LoopCode.Regular (code : LoopCode) (pred : BlockId) (plan : Plan) (zero next : ValueId)
    (phi : Instr) (rest : List Instr) : Prop where
  head : code.head = phi :: rest
  phi_result : phi.result = some code.induction
  phi_op : phi.op = .phi [(pred, zero), (code.tail, next)]
  plain_rest : ∀ i ∈ rest, i.isPhi = false
  plain_back : ∀ i ∈ code.back, i.isPhi = false
  closed_opening : Closed [] code.opening
  closed_rest : Closed [plan.rank, plan.size, zero, code.induction] rest
  closed_back : Closed [plan.size, code.induction] code.back
  zero : ∃ i ∈ code.opening, i.result = some zero
  turn : ∃ i ∈ rest, i.result = some code.turn
  next : ∃ i ∈ code.back, i.result = some next
  done : ∃ i ∈ code.back, i.result = some code.done

theorem LoopCode.mem_instrs (code : LoopCode) : (∀ i ∈ code.opening, i ∈ code.instrs) ∧
    (∀ i ∈ code.head, i ∈ code.instrs) ∧ ∀ i ∈ code.back, i ∈ code.instrs := by
  refine ⟨fun i hi => ?_, fun i hi => ?_, fun i hi => ?_⟩
  · exact List.mem_append_left _ hi
  · exact List.mem_append_right _ (List.mem_append_left _ hi)
  · exact List.mem_append_right _ (List.mem_append_right _ hi)

theorem Region.regular_code (r : Region) (guard : TurnGuard) (plan : Plan) (c : Counters) :
    ∃ zero next phi rest, (r.code guard plan c).Regular r.pred plan zero next phi rest := by
  refine ⟨_, _, _, _, rfl, rfl, rfl, ?_, ?_, ?_, ?_, ?_, ?_, ?_, ?_, ?_⟩
  · unfold Plan.convert TurnGuard.test
    cases guard <;> split <;> simp [Counters.emit, Instr.isPhi]
  · simp [code, Counters.emit, Instr.isPhi]
  · simp [code, opening, Closed, Counters.emit, Counters.step, Op.operands]
  · unfold code Plan.convert TurnGuard.test
    cases guard <;> dsimp only <;> split <;>
      simp [Closed, Counters.emit, Counters.step, Op.operands]
  · simp [code, Closed, Counters.emit, Counters.step, Op.operands]
  · simp [code, opening, Counters.emit]
  · cases guard with
    | rankAndSize =>
      exact ⟨_, List.mem_append_right _ (List.mem_cons_of_mem _ List.mem_cons_self), rfl⟩
    | rankEqualsIteration => exact ⟨_, List.mem_append_right _ List.mem_cons_self, rfl⟩
  · simp [code, Counters.emit, Counters.step]
  · simp [code, Counters.emit, Counters.step]

namespace Func

variable {f : Func} {guard : TurnGuard} {plan : Plan} {ws : List Wrap} {w : Wrap}
  {next : Counters} {a b x : BlockId} {blk : Block}

namespace Loopable

/-! ### Edges of the function with loops -/

/-- The edges out of a block from before take the detours. -/
theorem edge_old (h : f.Loopable guard plan ws next) (ha : a ∈ f.blockIds) :
    (f.looped ws next).graph.Edge a b ↔ ∃ t, f.graph.Edge a t ∧ detour ws t = b := by
  obtain ⟨blk, hblk⟩ := mem_blockIds_iff.1 ha
  rw [edge_iff, h.block?_old hblk]
  constructor
  · rintro ⟨_, heq, hb⟩
    cases heq
    rw [Block.inner, Terminator.targets_mapTargets] at hb
    obtain ⟨t, ht, rfl⟩ := List.mem_map.1 hb
    exact ⟨t, edge_iff.2 ⟨blk, hblk, ht⟩, rfl⟩
  · rintro ⟨t, hat, rfl⟩
    obtain ⟨blk', hblk', ht⟩ := edge_iff.1 hat
    rw [hblk] at hblk'
    cases hblk'
    refine ⟨_, rfl, ?_⟩
    rw [Block.inner, Terminator.targets_mapTargets]
    exact List.mem_map_of_mem ht

/-- Between blocks from before, the edges stay that lead neither to a start nor to a barrier. -/
theorem edge_old_old (h : f.Loopable guard plan ws next) (ha : a ∈ f.blockIds)
    (hb : b ∈ f.blockIds) : (f.looped ws next).graph.Edge a b ↔ f.graph.Edge a b ∧
      (∀ w ∈ ws, w.region.start ≠ b) ∧ ∀ w ∈ ws, w.region.succ ≠ b := by
  rw [h.edge_old ha]
  constructor
  · rintro ⟨t, hat, rfl⟩
    rcases start_or_succ_or_not ws t with ⟨w, hw, rfl⟩ | ⟨w, hw, rfl⟩ | ⟨hstart, hsucc⟩
    · rw [detour_start h.spaced hw] at hb
      exact absurd hb (h.header_not_mem hw)
    · rw [detour_succ h.spaced hw] at hb
      exact absurd hb (h.tail_not_mem hw)
    · rw [detour_of_ne hstart hsucc]
      exact ⟨hat, hstart, hsucc⟩
  · rintro ⟨hab, hstart, hsucc⟩
    exact ⟨b, hab, detour_of_ne hstart hsucc⟩

/-- The block in front of a region leads to the header. -/
theorem edge_old_header (h : f.Loopable guard plan ws next) (ha : a ∈ f.blockIds) (hw : w ∈ ws) :
    (f.looped ws next).graph.Edge a w.code.header ↔ a = w.region.pred := by
  rw [← (h.isRegion hw).enters, h.edge_old ha]
  constructor
  · rintro ⟨t, hat, ht⟩
    rcases start_or_succ_or_not ws t with ⟨w', hw', rfl⟩ | ⟨w', hw', rfl⟩ | ⟨hstart, hsucc⟩
    · rw [detour_start h.spaced hw'] at ht
      rwa [h.eq_of_header hw' hw ht] at hat
    · rw [detour_succ h.spaced hw'] at ht
      exact absurd ht.symm (h.header_ne_tail hw hw')
    · rw [detour_of_ne hstart hsucc] at ht
      exact absurd (h.shaped.mem_of_edge hat) (ht ▸ h.header_not_mem hw)
  · exact fun hab => ⟨_, hab, detour_start h.spaced hw⟩

/-- The end of a region leads to the tail. -/
theorem edge_old_tail (h : f.Loopable guard plan ws next) (ha : a ∈ f.blockIds) (hw : w ∈ ws) :
    (f.looped ws next).graph.Edge a w.code.tail ↔ a = w.region.exit := by
  rw [← (h.isRegion hw).closes, h.edge_old ha]
  constructor
  · rintro ⟨t, hat, ht⟩
    rcases start_or_succ_or_not ws t with ⟨w', hw', rfl⟩ | ⟨w', hw', rfl⟩ | ⟨hstart, hsucc⟩
    · rw [detour_start h.spaced hw'] at ht
      exact absurd ht (h.header_ne_tail hw' hw)
    · rw [detour_succ h.spaced hw'] at ht
      rwa [h.eq_of_tail hw' hw ht] at hat
    · rw [detour_of_ne hstart hsucc] at ht
      exact absurd (h.shaped.mem_of_edge hat) (ht ▸ h.tail_not_mem hw)
  · exact fun hab => ⟨_, hab, detour_succ h.spaced hw⟩

theorem edge_header (h : f.Loopable guard plan ws next) (hw : w ∈ ws) :
    (f.looped ws next).graph.Edge w.code.header b ↔ b = w.region.start ∨ b = w.code.tail := by
  rw [edge_iff, h.block?_header hw]
  simp [Wrap.header, LoopCode.headerBlock, Terminator.targets]

theorem edge_tail (h : f.Loopable guard plan ws next) (hw : w ∈ ws) :
    (f.looped ws next).graph.Edge w.code.tail b ↔ b = w.region.succ ∨ b = w.code.header := by
  rw [edge_iff, h.block?_tail hw]
  simp [Wrap.tail, LoopCode.tailBlock, Terminator.targets]

/-- Control comes to a block from before out of the header of a loop, out of the tail of one, or
over an edge from before that no detour replaces. -/
theorem edge_into_cases (h : f.Loopable guard plan ws next) (hb : b ∈ f.blockIds)
    (hab : (f.looped ws next).graph.Edge a b) :
    (∃ w ∈ ws, w.code.header = a ∧ w.region.start = b) ∨
      (∃ w ∈ ws, w.code.tail = a ∧ w.region.succ = b) ∨
      f.graph.Edge a b ∧ (∀ w ∈ ws, w.region.start ≠ b) ∧ ∀ w ∈ ws, w.region.succ ≠ b := by
  rcases h.mem_blockIds.1 (Graph.Edge.mem_nodes hab) with ⟨w, hw, rfl | rfl⟩ | ha
  · rcases (h.edge_header hw).1 hab with rfl | rfl
    · exact .inl ⟨w, hw, rfl, rfl⟩
    · exact absurd hb (h.tail_not_mem hw)
  · rcases (h.edge_tail hw).1 hab with rfl | rfl
    · exact .inr (.inl ⟨w, hw, rfl, rfl⟩)
    · exact absurd hb (h.header_not_mem hw)
  · exact .inr (.inr ((h.edge_old_old ha hb).1 hab))

/-- The edges to a block from before that no detour replaces come from before. -/
theorem edge_into_old (h : f.Loopable guard plan ws next) (hb : b ∈ f.blockIds)
    (hstart : ∀ w ∈ ws, w.region.start ≠ b) (hsucc : ∀ w ∈ ws, w.region.succ ≠ b) :
    (f.looped ws next).graph.Edge a b ↔ f.graph.Edge a b := by
  constructor
  · intro hab
    rcases h.edge_into_cases hb hab with ⟨w, hw, -, heq⟩ | ⟨w, hw, -, heq⟩ | ⟨hab, -, -⟩
    · exact absurd heq (hstart w hw)
    · exact absurd heq (hsucc w hw)
    · exact hab
  · exact fun hab => (h.edge_old_old (Graph.Edge.mem_nodes hab) hb).2 ⟨hab, hstart, hsucc⟩

/-- The header is entered from the block in front of the region and from the tail. -/
theorem edge_into_header (h : f.Loopable guard plan ws next) (hw : w ∈ ws) :
    (f.looped ws next).graph.Edge a w.code.header ↔ a = w.region.pred ∨ a = w.code.tail := by
  constructor
  · intro hab
    rcases h.mem_blockIds.1 (Graph.Edge.mem_nodes hab) with ⟨w', hw', rfl | rfl⟩ | ha
    · rcases (h.edge_header hw').1 hab with heq | heq
      · exact absurd (h.start_mem hw') (heq ▸ h.header_not_mem hw)
      · exact absurd heq (h.header_ne_tail hw hw')
    · rcases (h.edge_tail hw').1 hab with heq | heq
      · exact absurd (h.succ_mem hw') (heq ▸ h.header_not_mem hw)
      · rw [h.eq_of_header hw hw' heq]
        exact Or.inr rfl
    · exact Or.inl ((h.edge_old_header ha hw).1 hab)
  · rintro (rfl | rfl)
    · exact (h.edge_old_header (h.pred_mem hw) hw).2 rfl
    · exact (h.edge_tail hw).2 (Or.inr rfl)

/-! ### The shape of the function with loops -/

/-- The code of a loop, as far as it matters here. -/
theorem regular (h : f.Loopable guard plan ws next) (hw : w ∈ ws) :
    ∃ zero next phi rest, w.code.Regular w.region.pred plan zero next phi rest := by
  obtain ⟨c, hc⟩ := h.code w hw
  rw [hc]
  exact w.region.regular_code guard plan c

/-- The phi node of a loop. -/
theorem exists_phi (h : f.Loopable guard plan ws next) (hw : w ∈ ws) :
    ∃ i ∈ w.code.head, i.result = some w.code.induction := by
  obtain ⟨zero, next', phi, rest, hcode⟩ := h.regular hw
  exact ⟨phi, hcode.head ▸ List.mem_cons_self, hcode.phi_result⟩

/-- The instructions of a loop are new. -/
theorem instr_ge (h : f.Loopable guard plan ws next) (hw : w ∈ ws) {i : Instr}
    (hi : i ∈ w.code.instrs) : f.next.instr ≤ i.id.index :=
  (h.emits.id_mem (List.mem_flatMap.2 ⟨w, hw, hi⟩)).1

/-- The values of a loop are new. -/
theorem result_ge (h : f.Loopable guard plan ws next) (hw : w ∈ ws) {i : Instr}
    (hi : i ∈ w.code.instrs) {v : ValueId} (hv : i.result = some v) : f.next.value ≤ v.index :=
  (h.emits.result_mem (List.mem_flatMap.2 ⟨w, hw, hi⟩) hv).1

theorem result_ne_of_lt (h : f.Loopable guard plan ws next) (hw : w ∈ ws) {v : ValueId}
    (hv : v.index < f.next.value) {i : Instr} (hi : i ∈ w.code.instrs) : i.result ≠ some v :=
  fun hres => absurd hv (Nat.not_lt.2 (h.result_ge hw hi hres))

/-- The numbers of a loop are taken from the counters, which were not behind those of the
function. -/
theorem exists_code (h : f.Loopable guard plan ws next) (hw : w ∈ ws) :
    ∃ c, w.code = w.region.code guard plan c ∧ f.next.value ≤ c.value ∧
      f.next.instr ≤ c.instr := by
  obtain ⟨c, hc⟩ := h.code w hw
  have hmem : c.emit (.const (.int 0 plan.sizeTy)) plan.sizeTy ∈ w.code.instrs := by
    rw [hc]
    exact List.mem_append_left _ List.mem_cons_self
  exact ⟨c, hc, h.result_ge hw hmem rfl, h.instr_ge hw hmem⟩

/-- In front of each block there is one region at most. -/
theorem filter_pred (h : f.Loopable guard plan ws next) (hw : w ∈ ws) :
    (ws.filter fun w' => w'.region.pred = w.region.pred) = [w] := by
  have hstarts := h.spaced.starts
  rw [List.map_map] at hstarts
  have hpreds : (ws.map fun w => w.region.pred).Nodup := by
    refine List.Nodup.map_on (fun w₁ hw₁ w₂ hw₂ heq => ?_) hstarts.of_map
    have hedge := ((h.isRegion hw₁).leaves _).2 rfl
    rw [heq, (h.isRegion hw₂).leaves] at hedge
    exact h.eq_of_start hw₁ hw₂ hedge
  exact filter_key_eq_singleton hpreds hw

/-- What the code of a loop computes is known in the function with loops. -/
theorem mem_values_of_result (h : f.Loopable guard plan ws next) (hw : w ∈ ws) {i : Instr}
    {v : ValueId} (hi : i ∈ w.code.instrs) (hv : i.result = some v) :
    v ∈ (f.looped ws next).paramValues ++ (f.looped ws next).results := by
  refine List.mem_append_right _ (h.results_perm.mem_iff.2 (List.mem_append_right _ ?_))
  exact List.mem_filterMap.2 ⟨i, List.mem_flatMap.2 ⟨w, hw, hi⟩, hv⟩

theorem mem_values_of_old (h : f.Loopable guard plan ws next) {v : ValueId}
    (hv : v ∈ f.paramValues ++ f.results) :
    v ∈ (f.looped ws next).paramValues ++ (f.looped ws next).results := by
  rcases List.mem_append.1 hv with hv | hv
  · exact List.mem_append_left _ hv
  · exact List.mem_append_right _ (h.results_perm.mem_iff.2 (List.mem_append_left _ hv))

/-- The terminators of the function with loops branch to its blocks. -/
theorem targets_exist (h : f.Loopable guard plan ws next) :
    ∀ new ∈ (f.looped ws next).blocks, ∀ t ∈ new.term.targets, t ∈ (f.looped ws next).blockIds := by
  intro new hnew t ht
  have hmem : (f.looped ws next).graph.Edge new.id t :=
    edge_iff.2 ⟨new, block?_id h.blockIds_nodup hnew, ht⟩
  rw [h.mem_blockIds]
  rcases h.mem_looped.1 hnew with ⟨w, hw, rfl | rfl⟩ | ⟨blk, hblk, rfl⟩
  · rcases (h.edge_header hw).1 hmem with rfl | rfl
    · exact Or.inr (h.start_mem hw)
    · exact Or.inl ⟨w, hw, Or.inr rfl⟩
  · rcases (h.edge_tail hw).1 hmem with rfl | rfl
    · exact Or.inr (h.succ_mem hw)
    · exact Or.inl ⟨w, hw, Or.inl rfl⟩
  · obtain ⟨u, hu, rfl⟩ := (h.edge_old (List.mem_map_of_mem hblk)).1 hmem
    rcases start_or_succ_or_not ws u with ⟨w, hw, rfl⟩ | ⟨w, hw, rfl⟩ | ⟨hstart, hsucc⟩
    · rw [detour_start h.spaced hw]
      exact Or.inl ⟨w, hw, Or.inl rfl⟩
    · rw [detour_succ h.spaced hw]
      exact Or.inl ⟨w, hw, Or.inr rfl⟩
    · rw [detour_of_ne hstart hsucc]
      exact Or.inr (h.shaped.mem_of_edge hu)

/-- The phi nodes of the function with loops lead their blocks. -/
theorem phis_lead (h : f.Loopable guard plan ws next) :
    ∀ new ∈ (f.looped ws next).blocks,
      new.instrs.Pairwise fun i j => j.isPhi = true → i.isPhi = true := by
  have hplain : ∀ is : List Instr, (∀ i ∈ is, i.isPhi = false) →
      is.Pairwise fun i j => j.isPhi = true → i.isPhi = true := by
    intro is his
    refine List.Pairwise.imp_of_mem (R := fun _ _ => True) ?_
      (List.pairwise_of_forall fun _ _ => trivial)
    intro i j _ hj _ hphi
    rw [his j hj] at hphi
    cases hphi
  intro new hnew
  rcases h.mem_looped.1 hnew with ⟨w, hw, rfl | rfl⟩ | ⟨blk, hblk, rfl⟩
  · obtain ⟨zero, next', phi, rest, hcode⟩ := h.regular hw
    show w.code.head.Pairwise _
    rw [hcode.head, List.pairwise_cons]
    refine ⟨fun j hj hphi => ?_, hplain rest hcode.plain_rest⟩
    rw [hcode.plain_rest j hj] at hphi
    cases hphi
  · obtain ⟨zero, next', phi, rest, hcode⟩ := h.regular hw
    exact hplain _ hcode.plain_back
  · have hopening : ∀ i ∈ (ws.filter fun w => w.region.pred = blk.id).flatMap (·.code.opening),
        i.isPhi = false := by
      intro i hi
      obtain ⟨w, hw, hi⟩ := List.mem_flatMap.1 hi
      exact h.plain_opening (List.mem_filter.1 hw).1 i hi
    show (blk.instrs ++ _).Pairwise _
    rw [List.pairwise_append]
    refine ⟨Block.phis_lead_iff.1 (h.shaped.phis_lead blk hblk), hplain _ hopening, ?_⟩
    intro i _ j hj hphi
    rw [hopening j hj] at hphi
    cases hphi

/-- A block with phi nodes is neither the start of a region nor the block of a barrier. -/
theorem not_start_or_succ_of_phi (h : f.Loopable guard plan ws next) (hb : f.block? b = some blk)
    {i : Instr} (hi : i ∈ blk.instrs) (hphi : i.isPhi = true) :
    (∀ w ∈ ws, w.region.start ≠ b) ∧ ∀ w ∈ ws, w.region.succ ≠ b := by
  refine ⟨fun w hw heq => ?_, fun w hw heq => ?_⟩
  · rw [(h.isRegion hw).plain_start blk (heq ▸ hb) i hi] at hphi
    cases hphi
  · rw [(h.isRegion hw).plain_succ blk (heq ▸ hb) i hi] at hphi
    cases hphi

/-- The phi nodes of the function with loops name the predecessors of their blocks. -/
theorem phis_match (h : f.Loopable guard plan ws next) :
    ∀ new ∈ (f.looped ws next).blocks, ∀ i ∈ new.instrs, i.isPhi = true →
      (i.incoming.map (·.1)).Perm ((f.looped ws next).predecessors new.id) := by
  intro new hnew i hi hphi
  have hids := h.blockIds_nodup
  rcases h.mem_looped.1 hnew with ⟨w, hw, rfl | rfl⟩ | ⟨blk, hblk, rfl⟩
  · obtain ⟨zero, next', phi, rest, hcode⟩ := h.regular hw
    have hphi' : i = phi := by
      have hi' : i ∈ w.code.head := hi
      rw [hcode.head] at hi'
      refine (List.mem_cons.1 hi').resolve_right fun hrest => ?_
      rw [hcode.plain_rest i hrest] at hphi
      cases hphi
    have hincoming : i.incoming.map (·.1) = [w.region.pred, w.code.tail] := by
      rw [hphi', Instr.incoming, hcode.phi_op]
      rfl
    rw [hincoming, List.perm_ext_iff_of_nodup ?_ (nodup_predecessors hids)]
    · intro a
      rw [mem_predecessors_iff_edge hids, List.mem_pair]
      exact (h.edge_into_header hw).symm
    · rw [List.nodup_cons, List.mem_singleton]
      exact ⟨fun heq => h.tail_not_mem hw (heq ▸ h.pred_mem hw), List.nodup_singleton _⟩
  · obtain ⟨zero, next', phi, rest, hcode⟩ := h.regular hw
    have hplain := hcode.plain_back i hi
    rw [hphi] at hplain
    cases hplain
  · have hold : i ∈ blk.instrs := by
      refine (List.mem_append.1 hi).resolve_right fun hopening => ?_
      obtain ⟨w, hw, hi⟩ := List.mem_flatMap.1 hopening
      rw [h.plain_opening (List.mem_filter.1 hw).1 i hi] at hphi
      cases hphi
    obtain ⟨hstart, hsucc⟩ :=
      h.not_start_or_succ_of_phi (block?_id h.shaped.blocks_nodup hblk) hold hphi
    refine (h.shaped.phis_match blk hblk i hold hphi).trans ?_
    rw [List.perm_ext_iff_of_nodup (nodup_predecessors h.shaped.blocks_nodup)
      (nodup_predecessors hids)]
    intro a
    rw [mem_predecessors_iff_edge hids, mem_predecessors_iff_edge h.shaped.blocks_nodup]
    exact (h.edge_into_old (List.mem_map_of_mem hblk) hstart hsucc).symm

/-- What the code of a loop reads are results of the group queries and of the code itself. -/
theorem operands_code (h : f.Loopable guard plan ws next) (hw : w ∈ ws) {P : ValueId → Prop}
    (hrank : P plan.rank) (hsize : P plan.size)
    (hresult : ∀ i ∈ w.code.instrs, ∀ v, i.result = some v → P v) :
    (∀ i ∈ w.code.instrs, ∀ v ∈ i.op.operands, P v) ∧ P w.code.turn ∧ P w.code.done := by
  obtain ⟨zero, next', phi, rest, hcode⟩ := h.regular hw
  obtain ⟨hopening, hhead, hback⟩ := w.code.mem_instrs
  have hrest : ∀ i ∈ rest, i ∈ w.code.instrs := fun i hi =>
    hhead i (hcode.head ▸ List.mem_cons_of_mem _ hi)
  have hzero := hcode.zero.elim fun i hi => hresult i (hopening i hi.1) zero hi.2
  have hnext := hcode.next.elim fun i hi => hresult i (hback i hi.1) next' hi.2
  have hinduction := hresult phi (hhead phi (hcode.head ▸ List.mem_cons_self)) _ hcode.phi_result
  refine ⟨fun i hi => ?_, ?_, ?_⟩
  · rcases List.mem_append.1 hi with hi | hi
    · exact hcode.closed_opening.forall_operands (h.plain_opening hw) nofun
        (fun j hj => hresult j (hopening j hj)) i hi
    rcases List.mem_append.1 hi with hi | hi
    · rw [hcode.head] at hi
      rcases List.mem_cons.1 hi with rfl | hi
      · intro v hv
        rw [hcode.phi_op] at hv
        rcases List.mem_pair.1 hv with rfl | rfl
        · exact hzero
        · exact hnext
      · refine hcode.closed_rest.forall_operands hcode.plain_rest ?_
          (fun j hj => hresult j (hrest j hj)) i hi
        simp only [List.forall_mem_cons]
        exact ⟨hrank, hsize, hzero, hinduction, nofun⟩
    · refine hcode.closed_back.forall_operands hcode.plain_back ?_
        (fun j hj => hresult j (hback j hj)) i hi
      simp only [List.forall_mem_cons]
      exact ⟨hsize, hinduction, nofun⟩
  · obtain ⟨i, hi, hres⟩ := hcode.turn
    exact hresult i (hrest i hi) _ hres
  · obtain ⟨i, hi, hres⟩ := hcode.done
    exact hresult i (hback i hi) _ hres

/-- What the function with loops reads is known. -/
theorem operands_defined (h : f.Loopable guard plan ws next)
    (hrank : plan.rank ∈ f.paramValues ++ f.results)
    (hsize : plan.size ∈ f.paramValues ++ f.results) : ∀ new ∈ (f.looped ws next).blocks,
      (∀ i ∈ new.instrs, ∀ v ∈ i.op.operands,
        v ∈ (f.looped ws next).paramValues ++ (f.looped ws next).results) ∧
      ∀ v ∈ new.term.operands,
        v ∈ (f.looped ws next).paramValues ++ (f.looped ws next).results := by
  have hcode : ∀ w ∈ ws, _ := fun w hw => h.operands_code hw (h.mem_values_of_old hrank)
    (h.mem_values_of_old hsize) fun i hi v hv => h.mem_values_of_result hw hi hv
  intro new hnew
  rcases h.mem_looped.1 hnew with ⟨w, hw, rfl | rfl⟩ | ⟨blk, hblk, rfl⟩
  · obtain ⟨hinstrs, hturn, -⟩ := hcode w hw
    exact ⟨fun i hi => hinstrs i (w.code.mem_instrs.2.1 i hi),
      fun v hv => List.mem_singleton.1 hv ▸ hturn⟩
  · obtain ⟨hinstrs, -, hdone⟩ := hcode w hw
    exact ⟨fun i hi => hinstrs i (w.code.mem_instrs.2.2 i hi),
      fun v hv => List.mem_singleton.1 hv ▸ hdone⟩
  · obtain ⟨hinstrs, hterm⟩ := h.shaped.operands_defined blk hblk
    refine ⟨fun i hi v hv => ?_, fun v hv => ?_⟩
    · rcases List.mem_append.1 hi with hi | hi
      · exact h.mem_values_of_old (hinstrs i hi v hv)
      · obtain ⟨w, hw, hi⟩ := List.mem_flatMap.1 hi
        exact (hcode w (List.mem_filter.1 hw).1).1 i (w.code.mem_instrs.1 i hi) v hv
    · rw [Block.inner, Terminator.operands_mapTargets] at hv
      exact h.mem_values_of_old (hterm v hv)

/-- The function with loops has the right shape. -/
theorem shaped_looped (h : f.Loopable guard plan ws next)
    (hrank : plan.rank ∈ f.paramValues ++ f.results)
    (hsize : plan.size ∈ f.paramValues ++ f.results) : (f.looped ws next).Shaped := by
  refine ⟨?_, h.blockIds_nodup, h.targets_exist, ?_, fun v hv => ?_,
    fun new hnew => Block.phis_lead_iff.2 (h.phis_lead new hnew), h.phis_match,
    h.operands_defined hrank hsize⟩
  · obtain ⟨blk, hblk⟩ := List.exists_mem_of_ne_nil _ h.shaped.nonempty
    exact List.ne_nil_of_mem (h.mem_looped.2 (Or.inr ⟨blk, hblk, rfl⟩))
  · rw [h.results_perm.nodup_iff, List.nodup_append]
    refine ⟨h.shaped.results_nodup, h.emits.nodup_results, ?_⟩
    rintro v hv _ hv' rfl
    obtain ⟨i, hi, hres⟩ := List.mem_filterMap.1 hv'
    exact absurd (h.bounded.results_lt v hv) (Nat.not_lt.2 (h.emits.result_mem hi hres).1)
  · rcases List.mem_append.1 (h.results_perm.mem_iff.1 hv) with hv | hv
    · exact h.shaped.results_fresh v hv
    · obtain ⟨i, hi, hres⟩ := List.mem_filterMap.1 hv
      exact fun hparam => absurd (h.bounded.params_lt v hparam)
        (Nat.not_lt.2 (h.emits.result_mem hi hres).1)

end Loopable

end Func

end BarrierLowering
