import BarrierLowering.Proofs.Loop
import BarrierLowering.Proofs.Machine

/-!
# Tours through a loop

A tour of a thread begins in the block in front of a loop and ends when control first comes to the
barrier behind the loop. The code that was generated for the loop is interpreted, on integers of a
fixed width; everything else on the way may compute what it likes and branch as it likes.

## Main definitions

* `Stay`, `Tour` — what a thread knows when it leaves a block, and what is fixed on a tour.
* `Passes`, `Tour.Executes`, `Tour.Goes` — the instructions of a block, and the way out of it.
* `Tour.Segment` — the blocks of a tour, one after another.
* `Tour.CodeCounts` — what the code of a loop computes on a tour.

## Main results

* `Passes.keeps` — what the instructions of a block do not compute stays as it is.
* `Tour.codeCounts` — the generated code counts the iterations, and tests for the turn of the
  thread.
-/

namespace BarrierLowering

variable {width : Nat} {δ : Type}

/-! ### Tours -/

/-- A stay in a block: what is known when control leaves the block. -/
structure Stay (width : Nat) (δ : Type) where
  block : BlockId
  env : ValueId → Datum width δ

/-- What is fixed on a tour. -/
structure Tour (width : Nat) (δ : Type) where
  loop : TurnLoop
  plan : Plan
  /-- Instructions with smaller numbers are given, the others are generated. -/
  given : Nat
  /-- The size of the group. -/
  size : BitVec width
  /-- The rank of the thread, at the type of the size. -/
  rank : BitVec width
  /-- What becomes of a value that is converted to the type of the size. -/
  convert : Datum width δ → Datum width δ

/-- The instructions of a block change what is known, one after another. -/
inductive Passes (yields : (ValueId → Datum width δ) → Instr → Datum width δ → Prop) :
    (ValueId → Datum width δ) → List Instr → (ValueId → Datum width δ) → Prop
  | nil {env : ValueId → Datum width δ} : Passes yields env [] env
  | cons {env env' : ValueId → Datum width δ} {i : Instr} {is : List Instr} {d : Datum width δ} :
      yields env i d → Passes yields (assign env i.result d) is env' →
        Passes yields env (i :: is) env'

/-- Whether the test at the head of a loop passes in iteration `k`. -/
def TurnGuard.turns (guard : TurnGuard) (rank size k : BitVec width) : Bool :=
  match guard with
  | .rankAndSize => rank &&& size = 0
  | .rankEqualsIteration => rank = k

namespace Tour

variable (t : Tour width δ) (f : Func)

/-- A value that is the rank once it is converted, if it has to be converted. -/
def IsRank (d : Datum width δ) : Prop :=
  (if t.plan.rankTy = t.plan.sizeTy then d else t.convert d) = .int t.rank

/-- The rank of the thread and the size of the group are known. -/
structure Knows (env : ValueId → Datum width δ) : Prop where
  rank : t.IsRank (env t.plan.rank)
  size : env t.plan.size = .int t.size

/-- What a generated instruction computes in a block that was entered from `source`. Phi nodes
select from what was known at the entry. The slot of a loop may be anything. -/
def Computes (source : BlockId) (entry env : ValueId → Datum width δ) (i : Instr)
    (d : Datum width δ) : Prop :=
  match i.op with
  | .const (.int value ty) => ty.width? = some width → d = .int (.ofInt width value)
  | .cast value _ => d = t.convert (env value)
  | .binary op left right => ∀ x y, env left = .int x → env right = .int y →
    match op with
    | .add => d = .int (x + y)
    | .and => d = .int (x &&& y)
    | .eq => d = .bool (x = y)
    | .uge => d = .bool (y ≤ x)
    | _ => True
  | .phi incoming => ∀ e, incoming.find? (fun e => e.1 = source) = some e → d = entry e.2
  | _ => True

/-- What an instruction may compute. Generated code is interpreted in the blocks of the loop and in
the block in front of it. Elsewhere, all that is asked for is that the queries of the rank and of
the size are answered in the same way each time. -/
def Yields (b source : BlockId) (entry env : ValueId → Datum width δ) (i : Instr)
    (d : Datum width δ) : Prop :=
  if t.given ≤ i.id.index ∧ b ∈ [t.loop.pred, t.loop.header, t.loop.tail] then
    t.Computes source entry env i d
  else (i.result = some t.plan.rank → t.IsRank d) ∧ (i.result = some t.plan.size → d = .int t.size)

/-- A thread that knows `entry` enters a block from `source`, and stays in it. -/
def Executes (source : BlockId) (entry : ValueId → Datum width δ) (s : Stay width δ) : Prop :=
  ∃ blk, f.block? s.block = some blk ∧
    Passes (t.Yields s.block source entry) entry blk.instrs s.env

/-- Control goes from a stay to a block. The branches of the loop are interpreted. -/
def Goes (s : Stay width δ) (b : BlockId) : Prop :=
  ∃ blk, f.block? s.block = some blk ∧ b ∈ blk.term.targets ∧
    (s.block ∈ [t.loop.header, t.loop.tail] → ∀ condition onTrue onFalse value,
      blk.term = .condBranch condition onTrue onFalse → s.env condition = .bool value →
        b = if value then onTrue else onFalse)

/-- The way from a stay to the barrier behind the loop, on which control does not come to the block
in front of the loop again. -/
inductive Onward : Stay width δ → List (Stay width δ) → Prop
  | arrive {s : Stay width δ} : t.Goes f s t.loop.succ → Onward s []
  | stay {s u : Stay width δ} {ss : List (Stay width δ)} : t.Goes f s u.block →
      t.Executes f s.block s.env u → u.block ≠ t.loop.pred → u.block ≠ t.loop.succ →
      Onward u ss → Onward s (u :: ss)

/-- The stays of a tour: it begins in the block in front of the loop, where the rank and the size
are known in the end. -/
def Segment (ss : List (Stay width δ)) : Prop :=
  ∃ source entry s rest, ss = s :: rest ∧ s.block = t.loop.pred ∧ t.Executes f source entry s ∧
    t.Knows s.env ∧ t.Onward f s rest

/-- What the counter of the loop is in each stay in a block. -/
def counter (b : BlockId) (ss : List (Stay width δ)) : List (Datum width δ) :=
  (ss.filter fun s => s.block = b).map fun s => s.env t.loop.induction

/-- No sum that is computed for the loop in a stay is too great for its type. -/
def SumsFit (s : Stay width δ) : Prop :=
  s.block ∈ [t.loop.pred, t.loop.header, t.loop.tail] → ∀ i ∈ f.instrsOf s.block,
    t.given ≤ i.id.index → ∀ left right, i.op = .binary .add left right →
      ∃ x y, s.env left = .int x ∧ s.env right = .int y ∧ x.toNat + y.toNat < 2 ^ width

end Tour

/-! ### Instructions one after another -/

section Passes

variable {yields yields' : (ValueId → Datum width δ) → Instr → Datum width δ → Prop}
  {env env' : ValueId → Datum width δ} {i : Instr} {is js : List Instr} {v : ValueId}

theorem passes_nil : Passes yields env [] env' ↔ env' = env := by
  constructor
  · rintro ⟨⟩
    rfl
  · rintro rfl
    exact .nil

theorem passes_cons : Passes yields env (i :: is) env' ↔
    ∃ d, yields env i d ∧ Passes yields (assign env i.result d) is env' := by
  constructor
  · rintro (_ | ⟨hi, his⟩)
    exact ⟨_, hi, his⟩
  · rintro ⟨d, hi, his⟩
    exact .cons hi his

theorem passes_append : Passes yields env (is ++ js) env' ↔
    ∃ mid, Passes yields env is mid ∧ Passes yields mid js env' := by
  induction is generalizing env with
  | nil => simp [passes_nil]
  | cons i is ih =>
    simp only [List.cons_append, passes_cons, ih]
    constructor
    · rintro ⟨d, hi, mid, his, hjs⟩
      exact ⟨mid, ⟨d, hi, his⟩, hjs⟩
    · rintro ⟨mid, ⟨d, hi, his⟩, hjs⟩
      exact ⟨d, hi, mid, his, hjs⟩

/-- An instruction with a new result. Smaller values are not touched. -/
theorem exists_of_passes_emit {c : Counters} {op : Op} {ty : Ty}
    (h : Passes yields env (c.emit op ty :: is) env') : ∃ mid : ValueId → Datum width δ,
      yields env (c.emit op ty) (mid ⟨c.value⟩) ∧
        (∀ v : ValueId, v.index < c.value → mid v = env v) ∧ Passes yields mid is env' := by
  obtain ⟨d, hd, hrest⟩ := passes_cons.1 h
  refine ⟨Function.update env ⟨c.value⟩ d, ?_, fun v hv => ?_, hrest⟩
  · rwa [Function.update_self]
  · refine Function.update_of_ne ?_ _ _
    rintro rfl
    exact Nat.lt_irrefl _ hv

namespace Passes

theorem imp (h : Passes yields env is env')
    (himp : ∀ i ∈ is, ∀ env d, yields env i d → yields' env i d) : Passes yields' env is env' := by
  induction h with
  | nil => exact .nil
  | cons hi _ ih =>
    exact .cons (himp _ List.mem_cons_self _ _ hi)
      (ih fun j hj => himp j (List.mem_cons_of_mem _ hj))

/-- What holds of a value keeps holding if it holds whenever the value is computed. -/
theorem keeps {P : Datum width δ → Prop} (h : Passes yields env is env')
    (hkeeps : ∀ i ∈ is, i.result = some v → ∀ env d, yields env i d → P d) (hv : P (env v)) :
    P (env' v) := by
  induction h with
  | nil => exact hv
  | @cons env env' i is d hi _ ih =>
    refine ih (fun j hj => hkeeps j (List.mem_cons_of_mem _ hj)) ?_
    by_cases hres : i.result = some v
    · rw [hres]
      show P (Function.update env v d v)
      rw [Function.update_self]
      exact hkeeps i List.mem_cons_self hres env d hi
    · rwa [assign_of_ne hres]

/-- The other values stay as they are. -/
theorem env_eq (h : Passes yields env is env') (hne : ∀ i ∈ is, i.result ≠ some v) :
    env' v = env v :=
  h.keeps (P := (· = env v)) (fun i hi hres => absurd hres (hne i hi)) rfl

end Passes

end Passes

/-! ### Staying in a block and leaving it -/

namespace Tour

variable {t : Tour width δ} {f : Func} {s : Stay width δ} {b source : BlockId}
  {entry env env' : ValueId → Datum width δ} {is : List Instr}

/-- Generated code is interpreted in the blocks of the loop. -/
theorem passes_computes (hb : b ∈ [t.loop.pred, t.loop.header, t.loop.tail])
    (hgiven : ∀ i ∈ is, t.given ≤ i.id.index)
    (h : Passes (t.Yields b source entry) env is env') :
    Passes (t.Computes source entry) env is env' := by
  refine h.imp fun i hi env d hd => ?_
  unfold Yields at hd
  rwa [if_pos ⟨hgiven i hi, hb⟩] at hd

theorem Goes.edge (h : t.Goes f s b) : f.graph.Edge s.block b := by
  obtain ⟨blk, hblk, hb, -⟩ := h
  exact Func.edge_iff.2 ⟨blk, hblk, hb⟩

theorem goes_of_branch {blk : Block} (hblk : f.block? s.block = some blk)
    (hterm : blk.term = .branch b) : t.Goes f s b := by
  refine ⟨blk, hblk, ?_, fun _ condition onTrue onFalse value hterm' => ?_⟩
  · rw [hterm]
    exact List.mem_singleton.2 rfl
  · rw [hterm] at hterm'
    cases hterm'

theorem goes_of_condBranch {blk : Block} {condition : ValueId} {onTrue onFalse : BlockId}
    {value : Bool} (hblk : f.block? s.block = some blk)
    (hterm : blk.term = .condBranch condition onTrue onFalse)
    (hvalue : s.env condition = .bool value) (hb : b = if value then onTrue else onFalse) :
    t.Goes f s b := by
  refine ⟨blk, hblk, ?_, fun _ condition' onTrue' onFalse' value' hterm' hvalue' => ?_⟩
  · rw [hterm, hb]
    cases value
    · exact List.mem_pair.2 (.inr rfl)
    · exact List.mem_pair.2 (.inl rfl)
  · rw [hterm] at hterm'
    cases hterm'
    cases hvalue.symm.trans hvalue'
    exact hb

/-- At the end of a block of the loop control goes where the condition says. -/
theorem Goes.eq_of_condBranch {blk : Block} {condition : ValueId} {onTrue onFalse : BlockId}
    {value : Bool} (h : t.Goes f s b) (hs : s.block ∈ [t.loop.header, t.loop.tail])
    (hblk : f.block? s.block = some blk) (hterm : blk.term = .condBranch condition onTrue onFalse)
    (hvalue : s.env condition = .bool value) : b = if value then onTrue else onFalse := by
  obtain ⟨blk', hblk', -, hfollow⟩ := h
  obtain rfl := Option.some.inj (hblk.symm.trans hblk')
  exact hfollow hs _ _ _ _ hterm hvalue

end Tour

/-! ### The code of a loop -/

namespace Tour

variable {t : Tour width δ} {c : Counters} {source : BlockId} {ty : Ty} {r : Region}
  {guard : TurnGuard} {entry env env' : ValueId → Datum width δ} {v : ValueId} {k : BitVec width}

/-- On the first edge into a loop its phi node selects the first value. -/
theorem Computes.first {i : Instr} {a b : BlockId} {u u' : ValueId} {d : Datum width δ}
    (hop : i.op = .phi [(a, u), (b, u')]) (h : t.Computes a entry env i d) : d = entry u := by
  unfold Computes at h
  rw [hop] at h
  exact h (a, u) (by simp)

/-- On the edge back its phi node selects the second value. -/
theorem Computes.second {i : Instr} {a b : BlockId} {u u' : ValueId} {d : Datum width δ}
    (hop : i.op = .phi [(a, u), (b, u')]) (hne : a ≠ b) (h : t.Computes b entry env i d) :
    d = entry u' := by
  unfold Computes at h
  rw [hop] at h
  exact h (b, u') (by simp [hne])

/-- In front of the loop, zero is the first new value. -/
theorem passes_opening (hwidth : ty.width? = some width)
    (h : Passes (t.Computes source entry) env (Region.opening ty c) env') :
    env' ⟨c.value⟩ = .int 0 := by
  obtain ⟨mid, hzero, -, hrest⟩ := exists_of_passes_emit h
  rw [hrest.env_eq]
  · exact hzero hwidth
  · simp [Counters.emit, Counters.step]

/-- The rank keeps its value when it is converted. Smaller values are not touched. -/
theorem passes_convert (hrank : t.IsRank (env t.plan.rank))
    (h : Passes (t.Computes source entry) env (t.plan.convert c).instrs env') :
    env' (t.plan.convert c).value = .int t.rank ∧
      ∀ v : ValueId, v.index < c.value → env' v = env v := by
  unfold IsRank at hrank
  unfold Plan.convert at h ⊢
  split at hrank
  · next heq =>
    rw [if_pos heq] at h ⊢
    obtain rfl := passes_nil.1 h
    exact ⟨hrank, fun v _ => rfl⟩
  · next hne =>
    rw [if_neg hne] at h ⊢
    obtain ⟨mid, hcast, hold, hrest⟩ := exists_of_passes_emit h
    obtain rfl := passes_nil.1 hrest
    exact ⟨hcast.trans hrank, hold⟩

/-- What the test for the turn computes. Smaller values are not touched. -/
theorem passes_test {rank size zero induction : ValueId} (hzero : zero.index < c.value)
    (hrank : env rank = .int t.rank) (hsize : env size = .int t.size) (hz : env zero = .int 0)
    (hind : env induction = .int k)
    (h : Passes (t.Computes source entry) env
      (guard.test rank size zero induction ty c).instrs env') :
    env' (guard.test rank size zero induction ty c).value = .bool (guard.turns t.rank t.size k) ∧
      ∀ v : ValueId, v.index < c.value → env' v = env v := by
  cases guard with
  | rankAndSize =>
    obtain ⟨mid, hmasked, hold, hrest⟩ := exists_of_passes_emit h
    obtain ⟨mid', hturn, hold', hend⟩ := exists_of_passes_emit hrest
    obtain rfl := passes_nil.1 hend
    refine ⟨hturn _ _ (hmasked _ _ hrank hsize) ((hold zero hzero).trans hz), fun v hv => ?_⟩
    rw [hold' v (Nat.lt_succ_of_lt hv), hold v hv]
  | rankEqualsIteration =>
    obtain ⟨mid, hturn, hold, hend⟩ := exists_of_passes_emit h
    obtain rfl := passes_nil.1 hend
    exact ⟨hturn _ _ hrank hind, hold⟩

/-- What the tail computes. -/
theorem passes_back {induction size : ValueId} (hwidth : ty.width? = some width)
    (hinduction : induction.index < c.value) (hsize : size.index < c.value)
    (hind : env induction = .int k) (hknown : env size = .int t.size)
    (h : Passes (t.Computes source entry) env [c.emit (.const (.int 1 ty)) ty,
      c.step.emit (.binary .add induction ⟨c.value⟩) ty,
      c.step.step.emit (.binary .uge ⟨c.value + 1⟩ size) .bool] env') :
    env' induction = .int k ∧ env' ⟨c.value⟩ = .int 1 ∧ env' ⟨c.value + 1⟩ = .int (k + 1) ∧
      env' ⟨c.value + 2⟩ = .bool (t.size ≤ k + 1) := by
  obtain ⟨mid₁, hone, hold₁, h₁⟩ := exists_of_passes_emit h
  obtain ⟨mid₂, hadd, hold₂, h₂⟩ := exists_of_passes_emit h₁
  obtain ⟨mid₃, hdone, hold₃, h₃⟩ := exists_of_passes_emit h₂
  obtain rfl := passes_nil.1 h₃
  have hold : ∀ v : ValueId, v.index < c.value + 1 → env' v = mid₁ v := fun v hv =>
    (hold₃ v (Nat.lt_succ_of_lt hv)).trans (hold₂ v hv)
  have hone' : mid₁ ⟨c.value⟩ = .int 1 := hone hwidth
  have hnext : mid₂ ⟨c.value + 1⟩ = .int (k + 1) :=
    hadd _ _ ((hold₁ _ hinduction).trans hind) hone'
  refine ⟨?_, (hold _ (Nat.lt_succ_self _)).trans hone',
    (hold₃ _ (Nat.lt_succ_self _)).trans hnext, hdone _ _ hnext ?_⟩
  · rw [hold _ (Nat.lt_succ_of_lt hinduction), hold₁ _ hinduction, hind]
  · rw [hold₂ _ (Nat.lt_succ_of_lt hsize), hold₁ _ hsize, hknown]

/-- The values that the code of a loop computes beside those that it reports. -/
structure Values where
  zero : ValueId
  one : ValueId
  next : ValueId

/-- The code of a loop counts the iterations from zero up to the size of the group, and tests in
each of them whether it is the turn of the thread. -/
structure CodeCounts (t : Tour width δ) (guard : TurnGuard) (code : LoopCode) (pred : BlockId)
    (vs : Values) : Prop where
  opening : ∀ {source entry env env'}, Passes (t.Computes source entry) env code.opening env' →
    env' vs.zero = .int 0
  head : ∀ {source entry env' k}, Passes (t.Computes source entry) entry code.head env' →
    t.Knows entry → entry vs.zero = .int 0 →
      (source = pred ∧ k = 0 ∨ source = code.tail ∧ entry vs.next = .int k) →
        env' code.induction = .int k ∧ env' code.turn = .bool (guard.turns t.rank t.size k)
  back : ∀ {source entry env env' k}, Passes (t.Computes source entry) env code.back env' →
    t.Knows env → env code.induction = .int k →
      env' code.induction = .int k ∧ env' vs.one = .int 1 ∧ env' vs.next = .int (k + 1) ∧
        env' code.done = .bool (t.size ≤ k + 1)
  plain : ∀ i ∈ code.opening ++ code.head, ∀ left right, i.op ≠ .binary .add left right
  sums : ∀ i ∈ code.back, ∀ left right, i.op = .binary .add left right →
    left = code.induction ∧ right = vs.one
  zero_mem : ∃ i ∈ code.opening, i.result = some vs.zero

/-- The code of a loop counts. -/
theorem codeCounts (t : Tour width δ) (r : Region) (guard : TurnGuard) {c : Counters}
    (hwidth : t.plan.sizeTy.width? = some width) (hrank : t.plan.rank.index < c.value)
    (hsize : t.plan.size.index < c.value) (hpred : r.pred ≠ ⟨c.block + 1⟩) :
    ∃ vs, t.CodeCounts guard (r.code guard t.plan c) r.pred vs := by
  let rank := t.plan.convert ⟨c.block + 2, c.value + 3, c.instr + 4⟩
  let turn := guard.test rank.value t.plan.size ⟨c.value⟩ ⟨c.value + 2⟩ t.plan.sizeTy rank.next
  have hvalue : c.value + 3 ≤ rank.next.value :=
    (t.plan.emits_convert ⟨c.block + 2, c.value + 3, c.instr + 4⟩).value_le
  have hvalue' : rank.next.value ≤ turn.next.value := (guard.emits_test _ _ _ _ _ _).value_le
  refine ⟨⟨⟨c.value⟩, ⟨turn.next.value⟩, ⟨turn.next.value + 1⟩⟩, passes_opening hwidth,
    ?_, ?_, ?_, ?_, ⟨_, List.mem_cons_self, rfl⟩⟩
  · intro source entry env' k h hknows hzero hsource
    -- the phi node, the conversion of the rank, the test
    obtain ⟨mid, hphi, hold, hrest⟩ :=
      exists_of_passes_emit (c := ⟨c.block + 2, c.value + 2, c.instr + 3⟩) h
    obtain ⟨mid', hconvert, htest⟩ := passes_append.1 hrest
    have hind : mid ⟨c.value + 2⟩ = .int k := by
      rcases hsource with ⟨rfl, rfl⟩ | ⟨rfl, hnext⟩
      · exact (hphi.first rfl).trans hzero
      · exact (hphi.second rfl hpred).trans hnext
    have hold' : ∀ v : ValueId, v.index < c.value → mid v = entry v := fun v hv =>
      hold v (Nat.lt_add_right 2 hv)
    obtain ⟨hrank', hmid⟩ := passes_convert ((hold' _ hrank).symm ▸ hknows.rank) hconvert
    have hmid' : ∀ v : ValueId, v.index < c.value → mid' v = entry v := fun v hv =>
      (hmid v (Nat.lt_add_right 3 hv)).trans (hold' v hv)
    have hind' : mid' ⟨c.value + 2⟩ = .int k := (hmid _ (Nat.lt_succ_self _)).trans hind
    have hzero' : mid' ⟨c.value⟩ = .int 0 := by
      rw [hmid _ (Nat.lt_add_of_pos_right (by decide)),
        hold _ (Nat.lt_add_of_pos_right Nat.two_pos)]
      exact hzero
    have hlt : c.value < rank.next.value := by omega
    obtain ⟨hturn, hend⟩ := passes_test hlt hrank' ((hmid' _ hsize).trans hknows.size) hzero' hind'
      htest
    exact ⟨(hend ⟨c.value + 2⟩ hvalue).trans hind', hturn⟩
  · intro source entry env env' k h hknows hind
    exact passes_back hwidth (by show c.value + 2 < turn.next.value; omega)
      (by show t.plan.size.index < turn.next.value; omega) hind hknows.size h
  · intro i hi left right hop
    rcases List.mem_append.1 hi with hi | hi
    · simp only [Region.code, Region.opening, List.mem_cons, List.not_mem_nil, or_false] at hi
      rcases hi with rfl | rfl | rfl <;> cases hop
    rcases List.mem_cons.1 hi with rfl | hi
    · cases hop
    rcases List.mem_append.1 hi with hi | hi
    · unfold Plan.convert at hi
      split at hi
      · cases hi
      · obtain rfl := List.mem_singleton.1 hi
        cases hop
    · cases guard with
      | rankAndSize =>
        rcases List.mem_pair.1 hi with rfl | rfl <;> cases hop
      | rankEqualsIteration =>
        obtain rfl := List.mem_singleton.1 hi
        cases hop
  · intro i hi left right hop
    simp only [Region.code, List.mem_cons, List.not_mem_nil, or_false] at hi
    rcases hi with rfl | rfl | rfl <;> cases hop
    exact ⟨rfl, rfl⟩

end Tour

end BarrierLowering
