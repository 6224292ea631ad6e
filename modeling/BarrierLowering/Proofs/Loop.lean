import BarrierLowering.Proofs.Frame

/-!
# The code of a loop

The code that the lowering generates around a region depends on the counters only: it is the
same wherever the region stands.

## Main definitions

* `LoopCode`, `Region.code` — the generated code.
* `Func.wrapped` — the function with the code around a region.

## Main results

* `Region.apply_wrap` — wrapping a region succeeds, with that result.
-/

namespace BarrierLowering

/-! ### The generated code -/

/-- Instructions that compute a value, and the counters after them. -/
structure Snippet where
  value : ValueId
  instrs : List Instr
  next : Counters

/-- The rank at the type in which the loops count. -/
def Plan.convert (plan : Plan) (c : Counters) : Snippet :=
  if plan.rankTy = plan.sizeTy then ⟨plan.rank, [], c⟩
  else ⟨⟨c.value⟩, [c.emit (.cast plan.rank plan.sizeTy) plan.sizeTy], c.step⟩

/-- The test whether it is the turn of the thread with the given rank. -/
def TurnGuard.test (guard : TurnGuard) (rank size zero induction : ValueId) (ty : Ty)
    (c : Counters) : Snippet :=
  match guard with
  | .rankAndSize =>
    ⟨⟨c.value + 1⟩,
      [c.emit (.binary .and rank size) ty, c.step.emit (.binary .eq ⟨c.value⟩ zero) .bool],
      c.step.step⟩
  | .rankEqualsIteration => ⟨⟨c.value⟩, [c.emit (.binary .eq rank induction) .bool], c.step⟩

/-- Instructions whose numbers and results are the next ones, and the counters after them. -/
structure Counters.Emits (c : Counters) (is : List Instr) (c' : Counters) : Prop where
  ids : is.map (·.id.index) = List.range' c.instr is.length
  instr_eq : c'.instr = c.instr + is.length
  results : is.filterMap (·.result) = (List.range' c.value (c'.value - c.value)).map ValueId.mk
  value_le : c.value ≤ c'.value

namespace Counters.Emits

variable {c c' c'' : Counters} {is js : List Instr} {i : Instr}

theorem nil (hi : c'.instr = c.instr) (hv : c'.value = c.value) : c.Emits [] c' := by
  refine ⟨rfl, hi, ?_, hv.ge⟩
  rw [hv, Nat.sub_self]
  rfl

theorem emit (op : Op) (ty : Ty) : c.Emits [c.emit op ty] c.step := by
  refine ⟨rfl, rfl, ?_, Nat.le_succ _⟩
  rw [show c.step.value = c.value + 1 from rfl, Nat.add_sub_cancel_left]
  rfl

theorem append (h : c.Emits is c') (h' : c'.Emits js c'') : c.Emits (is ++ js) c'' := by
  refine ⟨?_, ?_, ?_, h.value_le.trans h'.value_le⟩
  · rw [List.map_append, h.ids, h'.ids, h.instr_eq, List.length_append, List.range'_append_1]
  · rw [h'.instr_eq, h.instr_eq, List.length_append, Nat.add_assoc]
  · have hmid := h.value_le
    have hend := h'.value_le
    rw [List.filterMap_append, h.results, h'.results, ← List.map_append,
      show c'.value = c.value + (c'.value - c.value) by omega, Nat.add_sub_cancel_left,
      List.range'_append_1]
    congr 2
    omega

theorem instr_le (h : c.Emits is c') : c.instr ≤ c'.instr := by
  rw [h.instr_eq]
  exact Nat.le_add_right _ _

/-- The numbers of the instructions lie between the counters. -/
theorem id_mem (h : c.Emits is c') (hi : i ∈ is) :
    c.instr ≤ i.id.index ∧ i.id.index < c'.instr := by
  have hmem : i.id.index ∈ is.map (·.id.index) := List.mem_map_of_mem hi
  rw [h.ids, List.mem_range'_1] at hmem
  exact ⟨hmem.1, h.instr_eq ▸ hmem.2⟩

/-- The results of the instructions lie between the counters. -/
theorem result_mem (h : c.Emits is c') {v : ValueId} (hi : i ∈ is) (hv : i.result = some v) :
    c.value ≤ v.index ∧ v.index < c'.value := by
  have hmem : v ∈ is.filterMap (·.result) := List.mem_filterMap.2 ⟨i, hi, hv⟩
  rw [h.results] at hmem
  obtain ⟨n, hn, rfl⟩ := List.mem_map.1 hmem
  rw [List.mem_range'_1] at hn
  have hle := h.value_le
  exact ⟨hn.1, by simp only; omega⟩

theorem nodup_ids (h : c.Emits is c') : (is.map (·.id)).Nodup := by
  refine List.Nodup.of_map InstrId.index ?_
  rw [List.map_map]
  show (is.map (·.id.index)).Nodup
  rw [h.ids]
  exact List.nodup_range'

theorem nodup_results (h : c.Emits is c') : (is.filterMap (·.result)).Nodup := by
  rw [h.results]
  exact List.Nodup.map (fun _ _ heq => ValueId.mk.inj heq) List.nodup_range'

end Counters.Emits

theorem Plan.emits_convert (plan : Plan) (c : Counters) :
    c.Emits (plan.convert c).instrs (plan.convert c).next := by
  unfold convert
  split
  · exact .nil rfl rfl
  · exact .emit _ _

theorem TurnGuard.emits_test (guard : TurnGuard) (rank size zero induction : ValueId) (ty : Ty)
    (c : Counters) : c.Emits (guard.test rank size zero induction ty c).instrs
      (guard.test rank size zero induction ty c).next := by
  cases guard with
  | rankAndSize => exact (Counters.Emits.emit _ _).append (.emit _ _)
  | rankEqualsIteration => exact .emit _ _

/-- The code of a loop around a region: the names of its blocks, what is appended to the block in
front, the header and the tail, each with the value that it branches on, and the counters after
all of it. -/
structure LoopCode where
  header : BlockId
  tail : BlockId
  opening : List Instr
  head : List Instr
  turn : ValueId
  back : List Instr
  done : ValueId
  induction : ValueId
  slot : ValueId
  next : Counters

namespace Region

/-- What is appended to the block in front of a region. -/
def opening (ty : Ty) (c : Counters) : List Instr :=
  [c.emit (.const (.int 0 ty)) ty, c.step.emit (.alloca ty) (.ptr ty),
    ⟨⟨c.instr + 2⟩, none, .store ⟨c.value + 1⟩ ⟨c.value⟩, .void⟩]

/-- The code of a loop, as the counters say. -/
def code (r : Region) (guard : TurnGuard) (plan : Plan) (c : Counters) : LoopCode :=
  let ty := plan.sizeTy
  let zero : ValueId := ⟨c.value⟩
  let induction : ValueId := ⟨c.value + 2⟩
  let rank := plan.convert ⟨c.block + 2, c.value + 3, c.instr + 4⟩
  let turn := guard.test rank.value plan.size zero induction ty rank.next
  let one : ValueId := ⟨turn.next.value⟩
  let next : ValueId := ⟨turn.next.value + 1⟩
  { header := ⟨c.block⟩
    tail := ⟨c.block + 1⟩
    opening := opening ty c
    head :=
      ⟨⟨c.instr + 3⟩, some induction, .phi [(r.pred, zero), (⟨c.block + 1⟩, next)], ty⟩ ::
        (rank.instrs ++ turn.instrs)
    turn := turn.value
    back :=
      [turn.next.emit (.const (.int 1 ty)) ty,
        turn.next.step.emit (.binary .add induction one) ty,
        turn.next.step.step.emit (.binary .uge next plan.size) .bool]
    done := ⟨turn.next.value + 2⟩
    induction
    slot := ⟨c.value + 1⟩
    next := turn.next.step.step.step }

/-- The report about the loop. -/
def loop (r : Region) (code : LoopCode) : TurnLoop :=
  ⟨r.key, r.pred, code.header, r.start, code.tail, r.succ, code.induction, code.slot⟩

end Region

/-- The header of a loop. -/
def LoopCode.headerBlock (code : LoopCode) (r : Region) : Block :=
  ⟨code.header, "cg.header", code.head, .condBranch code.turn r.start code.tail⟩

/-- The tail of a loop. -/
def LoopCode.tailBlock (code : LoopCode) (r : Region) : Block :=
  ⟨code.tail, "cg.tail", code.back, .condBranch code.done r.succ code.header⟩

/-- The function with a loop around a region. -/
def Func.wrapped (f : Func) (r : Region) (code : LoopCode) : Func :=
  f.expand (r.frame code.opening (code.headerBlock r) (code.tailBlock r)) code.next

theorem Region.emits_opening (ty : Ty) (c c' : Counters) (hi : c'.instr = c.instr + 3)
    (hv : c'.value = c.value + 2) : c.Emits (opening ty c) c' := by
  have hstore : c.step.step.Emits
      [⟨⟨c.instr + 2⟩, none, .store ⟨c.value + 1⟩ ⟨c.value⟩, .void⟩] c' := by
    refine ⟨rfl, hi, ?_, hv.ge⟩
    rw [hv, show c.step.step.value = c.value + 2 from rfl, Nat.sub_self]
    rfl
  exact ((Counters.Emits.emit _ _).append (.emit _ _)).append hstore

/-- The instructions of a loop, in the order in which they are emitted. -/
def LoopCode.instrs (code : LoopCode) : List Instr := code.opening ++ (code.head ++ code.back)

theorem Region.emits_code (r : Region) (guard : TurnGuard) (plan : Plan) (c : Counters) :
    c.Emits (r.code guard plan c).instrs (r.code guard plan c).next := by
  let ty := plan.sizeTy
  let c₁ : Counters := ⟨c.block + 2, c.value + 3, c.instr + 4⟩
  have hphi : (⟨c.block + 2, c.value + 2, c.instr + 3⟩ : Counters).Emits
      [⟨⟨c.instr + 3⟩, some ⟨c.value + 2⟩, .phi [(r.pred, ⟨c.value⟩), (⟨c.block + 1⟩,
        ⟨(r.code guard plan c).done.index - 1⟩)], ty⟩] c₁ := by
    refine ⟨rfl, rfl, ?_, Nat.le_succ _⟩
    rw [show c₁.value = c.value + 2 + 1 from rfl, Nat.add_sub_cancel_left]
    rfl
  have hopening := emits_opening ty c ⟨c.block + 2, c.value + 2, c.instr + 3⟩ rfl rfl
  have hrank := plan.emits_convert c₁
  have hturn := guard.emits_test (plan.convert c₁).value plan.size ⟨c.value⟩ ⟨c.value + 2⟩ ty
    (plan.convert c₁).next
  exact hopening.append ((hphi.append (hrank.append hturn)).append
    (((Counters.Emits.emit _ _).append (.emit _ _)).append (.emit _ _)))

/-! ### Wrapping a region -/

namespace Region

variable {f : Func} {r : Region} {guard : TurnGuard} {plan : Plan}

/-- A region with two new block identifiers, as the counters say, and no phi nodes in the way. -/
structure Wrappable (f : Func) (r : Region) : Prop where
  bounded : f.Bounded
  framable : Framable f r ⟨f.next.block⟩ ⟨f.next.block + 1⟩
  pred_ne_start : r.pred ≠ r.start
  pred_ne_succ : r.pred ≠ r.succ
  plain_start : ∀ blk, f.block? r.start = some blk → ∀ i ∈ blk.instrs, i.isPhi = false
  plain_succ : ∀ blk, f.block? r.succ = some blk → ∀ i ∈ blk.instrs, i.isPhi = false

/-- The two splits in front of a region and of its barrier succeed. -/
theorem Wrappable.apply_splits (h : Wrappable f r) (opening : List Instr) (c : Counters)
    (hc : c.block = f.next.block) :
    (Edit.splitLabeled r.start 0 "cg.header").apply (f.widen r.pred opening c) =
      (.ok ⟨c.block⟩, (f.widen r.pred opening c).cut r.start 0 "cg.header") ∧
    (Edit.splitLabeled r.succ 0 "cg.tail").apply
        ((f.widen r.pred opening c).cut r.start 0 "cg.header") =
      (.ok ⟨c.block + 1⟩, f.expand (r.frame opening ⟨⟨c.block⟩, "cg.header", [], .branch r.start⟩
        ⟨⟨c.block + 1⟩, "cg.tail", [], .branch r.succ⟩) { c with block := c.block + 2 }) := by
  have hf := h.framable
  have hids : (f.widen r.pred opening c).blockIds.Nodup := by
    rw [Func.blockIds_widen]
    exact hf.nodup
  obtain ⟨start, hstart⟩ := Func.mem_blockIds_iff.1 hf.start_mem
  obtain ⟨succ, hsucc⟩ := Func.mem_blockIds_iff.1 hf.succ_mem
  have hnew : (f.widen r.pred opening c).fresh ∉ (f.widen r.pred opening c).blockIds := by
    rw [Func.blockIds_widen]
    show (⟨c.block⟩ : BlockId) ∉ _
    rw [hc]
    exact hf.header_new
  have hids' : ((f.widen r.pred opening c).cut r.start 0 "cg.header").blockIds.Nodup := by
    refine (Func.blockIds_cut_perm hids ?_).nodup_iff.2 (List.nodup_cons.2 ⟨hnew, hids⟩)
    rw [Func.blockIds_widen]
    exact hf.start_mem
  constructor
  · refine Edit.apply_splitLabeled hids
      (Func.block?_widen hf.nodup hstart h.pred_ne_start.symm) ?_ (Nat.zero_le _)
    rw [Block.phiCount_eq_zero (h.plain_start start hstart)]
  · rw [← Framable.cut_cut (hc ▸ hf)]
    refine Edit.apply_splitLabeled hids' (Func.block?_cut_of_ne hids' hf.start_ne_succ.symm
      (Func.block?_widen hf.nodup hsucc h.pred_ne_succ.symm)) ?_ (Nat.zero_le _)
    exact (Block.phiCount_eq_zero fun i hi => h.plain_succ succ hsucc i hi).le

/-- The conversion of the rank in the header. -/
theorem apply_convert {opening : List Instr} {header tail : Block} {c : Counters}
    (hf : Framable f r header.id tail.id) (plan : Plan) :
    (if plan.rankTy = plan.sizeTy then (pure plan.rank : Edit EditError ValueId)
      else Emit.cast header.id plan.rank plan.sizeTy).apply
        (f.expand (r.frame opening header tail) c) =
      (.ok (plan.convert c).value, f.expand
        (r.frame opening { header with instrs := header.instrs ++ (plan.convert c).instrs } tail)
        (plan.convert c).next) := by
  unfold Plan.convert
  by_cases hty : plan.rankTy = plan.sizeTy
  · rw [if_pos hty, if_pos hty, Edit.apply_pure, List.append_nil]
  · rw [if_neg hty, if_neg hty]
    exact hf.apply_value_header _ _

/-- The test for the turn in the header. -/
theorem apply_test {opening : List Instr} {header tail : Block} {c : Counters}
    (hf : Framable f r header.id tail.id) (guard : TurnGuard) (rank size zero induction : ValueId)
    (ty : Ty) :
    (guard.emit header.id rank size zero induction ty).apply
        (f.expand (r.frame opening header tail) c) =
      (.ok (guard.test rank size zero induction ty c).value, f.expand
        (r.frame opening
          { header with
            instrs := header.instrs ++ (guard.test rank size zero induction ty c).instrs } tail)
        (guard.test rank size zero induction ty c).next) := by
  cases guard with
  | rankAndSize =>
    let masked : Block := { header with
      instrs := header.instrs ++ [c.emit (.binary .and rank size) ty] }
    have hf' : Framable f r masked.id tail.id := hf
    have hmasked : (Emit.value header.id (.binary .and rank size) ty).apply
        (f.expand (r.frame opening header tail) c) = _ := hf.apply_value_header _ _
    have hturn : (Emit.value masked.id (.binary .eq ⟨c.value⟩ zero) .bool).apply
        (f.expand (r.frame opening masked tail) c.step) = _ := hf'.apply_value_header _ _
    unfold TurnGuard.emit
    dsimp only
    rw [Edit.apply_bind, Emit.and_eq, hmasked]
    dsimp only
    rw [Emit.eq_eq, hturn]
    dsimp only [TurnGuard.test]
    rw [List.append_assoc]
    rfl
  | rankEqualsIteration =>
    unfold TurnGuard.emit
    dsimp only
    rw [Emit.eq_eq, hf.apply_value_header]
    rfl

/-- What is emitted in front of a region. -/
theorem Wrappable.apply_opening (h : Wrappable f r) (ty : Ty) :
    (Emit.int r.pred 0 ty).apply f =
      (.ok ⟨f.next.value⟩, f.widen r.pred [f.next.emit (.const (.int 0 ty)) ty] f.next.step) ∧
    (Emit.alloca r.pred ty).apply
        (f.widen r.pred [f.next.emit (.const (.int 0 ty)) ty] f.next.step) =
      (.ok ⟨f.next.value + 1⟩, f.widen r.pred
        [f.next.emit (.const (.int 0 ty)) ty, f.next.step.emit (.alloca ty) (.ptr ty)]
        f.next.step.step) ∧
    (Emit.store r.pred ⟨f.next.value + 1⟩ ⟨f.next.value⟩).apply
        (f.widen r.pred
          [f.next.emit (.const (.int 0 ty)) ty, f.next.step.emit (.alloca ty) (.ptr ty)]
          f.next.step.step) =
      (.ok ⟨f.next.instr + 2⟩, f.widen r.pred (opening ty f.next)
        ⟨f.next.block, f.next.value + 2, f.next.instr + 3⟩) := by
  have hids := h.framable.nodup
  have hmem := h.framable.pred_mem
  refine ⟨?_, Func.apply_value_widen hids hmem _ _, Func.apply_effect_widen hids hmem _⟩
  have hzero : (Emit.int r.pred 0 ty).apply (f.widen r.pred [] f.next) = _ :=
    Func.apply_value_widen hids hmem _ _
  rwa [Func.widen_nil] at hzero

/-- What is emitted up to the phi node, which has one edge for now. -/
theorem Wrappable.apply_enter (h : Wrappable f r) (ty : Ty) :
    (do
      let zero ← Emit.int r.pred 0 ty
      let slot ← Emit.alloca r.pred ty
      let _ ← Emit.store r.pred slot zero
      let header ← Edit.splitLabeled r.start 0 "cg.header"
      let tail ← Edit.splitLabeled r.succ 0 "cg.tail"
      let induction ← Emit.phi header [(r.pred, zero)] ty
      return (zero, slot, header, tail, induction) : Edit EditError _).apply f =
    (.ok (⟨f.next.value⟩, ⟨f.next.value + 1⟩, ⟨f.next.block⟩, ⟨f.next.block + 1⟩,
        ⟨f.next.value + 2⟩),
      f.expand (r.frame (opening ty f.next)
          ⟨⟨f.next.block⟩, "cg.header", [⟨⟨f.next.instr + 3⟩, some ⟨f.next.value + 2⟩,
            .phi [(r.pred, ⟨f.next.value⟩)], ty⟩], .branch r.start⟩
          ⟨⟨f.next.block + 1⟩, "cg.tail", [], .branch r.succ⟩)
        ⟨f.next.block + 2, f.next.value + 3, f.next.instr + 4⟩) := by
  obtain ⟨hzero, hslot, hstore⟩ := h.apply_opening ty
  let c : Counters := ⟨f.next.block, f.next.value + 2, f.next.instr + 3⟩
  obtain ⟨hheader, htail⟩ := h.apply_splits (opening ty f.next) c rfl
  let header : Block := ⟨⟨f.next.block⟩, "cg.header", [], .branch r.start⟩
  let tail : Block := ⟨⟨f.next.block + 1⟩, "cg.tail", [], .branch r.succ⟩
  have hf : Framable f r header.id tail.id := h.framable
  have hphi : (Emit.phi header.id [(r.pred, ⟨f.next.value⟩)] ty).apply
      (f.expand (r.frame (opening ty f.next) header tail) { c with block := c.block + 2 }) = _ :=
    hf.apply_value_header _ _
  refine (Edit.apply_bind_ok hzero).trans ?_
  refine (Edit.apply_bind_ok hslot).trans ?_
  refine (Edit.apply_bind_ok hstore).trans ?_
  refine (Edit.apply_bind_ok hheader).trans ?_
  refine (Edit.apply_bind_ok htail).trans ?_
  exact (Edit.apply_bind_ok hphi).trans rfl

section Stages

variable {opening : List Instr} {header tail : Block} {c : Counters}

/-- What is emitted up to the next number of the iteration: the rest of the header and its end,
and the first half of the tail. -/
theorem apply_count (hf : Framable f r header.id tail.id) (guard : TurnGuard) (plan : Plan)
    (zero induction : ValueId) :
    let rank := plan.convert c
    let turn := guard.test rank.value plan.size zero induction plan.sizeTy rank.next
    (do
      let rank ← if plan.rankTy = plan.sizeTy then pure plan.rank
        else Emit.cast header.id plan.rank plan.sizeTy
      let turn ← guard.emit header.id rank plan.size zero induction plan.sizeTy
      Emit.condBranch header.id turn r.start tail.id
      let one ← Emit.int tail.id 1 plan.sizeTy
      Emit.add tail.id induction one plan.sizeTy : Edit EditError ValueId).apply
        (f.expand (r.frame opening header tail) c) =
    (.ok ⟨turn.next.value + 1⟩, f.expand (r.frame opening
      { header with
        instrs := header.instrs ++ rank.instrs ++ turn.instrs
        term := .condBranch turn.value r.start tail.id }
      { tail with
        instrs := tail.instrs ++ [turn.next.emit (.const (.int 1 plan.sizeTy)) plan.sizeTy] ++
          [turn.next.step.emit (.binary .add induction ⟨turn.next.value⟩) plan.sizeTy] })
      turn.next.step.step) := by
  intro rank turn
  let header₁ : Block := { header with instrs := header.instrs ++ rank.instrs }
  let header₂ : Block := { header₁ with instrs := header₁.instrs ++ turn.instrs }
  let header₃ : Block := { header₂ with term := .condBranch turn.value r.start tail.id }
  let tail₁ : Block := { tail with
    instrs := tail.instrs ++ [turn.next.emit (.const (.int 1 plan.sizeTy)) plan.sizeTy] }
  have hf₁ : Framable f r header₁.id tail.id := hf
  have hf₂ : Framable f r header₂.id tail.id := hf
  have hf₃ : Framable f r header₃.id tail.id := hf
  have hf₄ : Framable f r header₃.id tail₁.id := hf
  have hrank := @apply_convert f r opening header tail c hf plan
  have hturn : (guard.emit header.id rank.value plan.size zero induction plan.sizeTy).apply
      (f.expand (r.frame opening header₁ tail) rank.next) = _ := apply_test hf₁ _ _ _ _ _ _
  have hhead : (Emit.condBranch header.id turn.value r.start tail.id).apply
      (f.expand (r.frame opening header₂ tail) turn.next) = _ := hf₂.apply_terminator_header _
  have hone : (Emit.int tail.id 1 plan.sizeTy).apply
      (f.expand (r.frame opening header₃ tail) turn.next) = _ := hf₃.apply_value_tail _ _
  have hnext : (Emit.add tail.id induction ⟨turn.next.value⟩ plan.sizeTy).apply
      (f.expand (r.frame opening header₃ tail₁) turn.next.step) = _ := hf₄.apply_value_tail _ _
  have hrest : ∀ k : ValueId → Edit EditError ValueId,
      (if plan.rankTy = plan.sizeTy then k plan.rank
        else Emit.cast header.id plan.rank plan.sizeTy >>= k) =
      (if plan.rankTy = plan.sizeTy then (pure plan.rank : Edit EditError ValueId)
        else Emit.cast header.id plan.rank plan.sizeTy) >>= k := by
    intro k
    split <;> rfl
  refine (congrArg (fun e : Edit EditError ValueId => e.apply _) (hrest _)).trans ?_
  refine (Edit.apply_bind_ok hrank).trans ?_
  refine (Edit.apply_bind_ok hturn).trans ?_
  refine (Edit.apply_bind_ok hhead).trans ?_
  exact (Edit.apply_bind_ok hone).trans hnext

/-- What is emitted last: the second half of the tail, and its end. -/
theorem apply_repeat (hf : Framable f r header.id tail.id) (next size : ValueId) :
    (do
      let done ← Emit.uge tail.id next size
      Emit.condBranch tail.id done r.succ header.id : Edit EditError Unit).apply
        (f.expand (r.frame opening header tail) c) =
    (.ok (), f.expand (r.frame opening header
      { tail with
        instrs := tail.instrs ++ [c.emit (.binary .uge next size) .bool]
        term := .condBranch ⟨c.value⟩ r.succ header.id }) c.step) := by
  let tail₁ : Block := { tail with
    instrs := tail.instrs ++ [c.emit (.binary .uge next size) .bool] }
  have hf₁ : Framable f r header.id tail₁.id := hf
  have hdone : (Emit.uge tail.id next size).apply (f.expand (r.frame opening header tail) c) = _ :=
    hf.apply_value_tail _ _
  have hend : (Emit.condBranch tail.id ⟨c.value⟩ r.succ header.id).apply
      (f.expand (r.frame opening header tail₁) c.step) = _ := hf₁.apply_terminator_tail _
  exact (Edit.apply_bind_ok hdone).trans hend

end Stages

/-- Wrapping a region succeeds. -/
theorem apply_wrap (h : Wrappable f r) (guard : TurnGuard) (plan : Plan) :
    (r.wrap guard plan).apply f =
      (.ok (r.loop (r.code guard plan f.next)), f.wrapped r (r.code guard plan f.next)) := by
  let ty := plan.sizeTy
  let is := opening ty f.next
  let zero : ValueId := ⟨f.next.value⟩
  let induction : ValueId := ⟨f.next.value + 2⟩
  let c : Counters := ⟨f.next.block + 2, f.next.value + 3, f.next.instr + 4⟩
  let rank := plan.convert c
  let turn := guard.test rank.value plan.size zero induction ty rank.next
  let next : ValueId := ⟨turn.next.value + 1⟩
  let code := r.code guard plan f.next
  -- the blocks up to the phi node, before it is closed, and after
  let header₁ : Block := ⟨⟨f.next.block⟩, "cg.header",
    [⟨⟨f.next.instr + 3⟩, some induction, .phi [(r.pred, zero)], ty⟩], .branch r.start⟩
  let tail₁ : Block := ⟨⟨f.next.block + 1⟩, "cg.tail", [], .branch r.succ⟩
  let header₂ : Block := { code.headerBlock r with
    instrs := header₁.instrs ++ rank.instrs ++ turn.instrs }
  let tail₂ : Block := { tail₁ with
    instrs := [turn.next.emit (.const (.int 1 ty)) ty,
      turn.next.step.emit (.binary .add induction ⟨turn.next.value⟩) ty] }
  have hf₁ : Framable f r header₁.id tail₁.id := h.framable
  have hf₂ : Framable f r header₂.id tail₂.id := h.framable
  have hf₃ : Framable f r (code.headerBlock r).id tail₂.id := h.framable
  have hrest : c.Emits (rank.instrs ++ turn.instrs) turn.next := (plan.emits_convert c).append
    (guard.emits_test rank.value plan.size zero induction ty rank.next)
  have hback : turn.next.Emits tail₂.instrs turn.next.step.step :=
    (Counters.Emits.emit _ _).append (.emit _ _)
  have hclose : (closePhi induction tail₁.id next).apply
      (f.expand (r.frame is header₂ tail₂) turn.next.step.step) =
      (.ok (), f.expand (r.frame is (code.headerBlock r) tail₂) turn.next.step.step) := by
    refine hf₂.apply_closePhi rfl (fun blk hblk i hi hv => ?_) (fun i hi hv => ?_)
      (fun i hi hv => ?_) (fun i hi hv => ?_) _
    · have hlt := h.bounded.results_lt induction
        (Func.mem_results_iff.2 ⟨blk, hblk, i, hi, hv⟩)
      exact absurd hlt (by simp [induction])
    · have hlt := (emits_opening ty f.next ⟨f.next.block + 2, f.next.value + 2, f.next.instr + 3⟩
        rfl rfl).result_mem hi hv
      exact absurd hlt.2 (Nat.lt_irrefl _)
    · have hle := hrest.result_mem hi hv
      exact absurd hle.1 (Nat.not_succ_le_self _)
    · have hle := hback.result_mem hi hv
      exact absurd (hrest.value_le.trans hle.1) (Nat.not_succ_le_self _)
  have hcount := @apply_count f r is header₁ tail₁ c hf₁ guard plan zero induction
  have hrepeat := @apply_repeat f r is (code.headerBlock r) tail₂
    turn.next.step.step hf₃ next plan.size
  unfold wrap
  refine (Edit.apply_bind_ok (Edit.apply_lift_ok (h.apply_enter ty))).trans ?_
  refine (Edit.apply_bind_ok (Edit.apply_lift_ok hcount)).trans ?_
  refine (Edit.apply_bind_ok hclose).trans ?_
  exact (Edit.apply_bind_ok (Edit.apply_lift_ok hrepeat)).trans rfl

end Region

end BarrierLowering
