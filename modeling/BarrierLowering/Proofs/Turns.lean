import BarrierLowering.Proofs.Looped
import BarrierLowering.Proofs.Machine

/-!
# Taking turns

The guard of a loop may compare the rank of a thread with the number of the iteration. Then the
thread runs the region in one iteration, that of its rank, and passes it by in all others.

## Main definitions

* `LoopCode.Counts` — what the code of a loop computes.
* `Func.Leads` — a thread comes from one point to another.
* `Wrap.Keeps` — what the code of a loop does not change.

## Main results

* `Region.counts_code` — the code of a loop counts the iterations.
* `Func.Loopable.leads_start` — a thread that enters a loop has a turn.
* `Func.Loopable.leads_succ` — a thread that had its turn leaves the loop without another.
-/

namespace BarrierLowering

variable {width : Nat} {δ : Type} {m : Machine width δ}

/-! ### Generated code -/

namespace Machine

variable {i : Instr} {is : List Instr} {source : Option BlockId}
  {entry : ValueId → Datum width δ} {t : Thread width δ}

theorem exec_of_generated (h : m.given.instr ≤ i.id.index) : m.exec source entry t i =
    ⟨assign t.env i.result (m.compute source entry t.env i), t.trace⟩ :=
  if_neg (Nat.not_lt.2 h)

/-- Generated code leaves no record. -/
theorem trace_foldl (h : ∀ i ∈ is, m.given.instr ≤ i.id.index) :
    (is.foldl (m.exec source entry) t).trace = t.trace := by
  induction is generalizing t with
  | nil => rfl
  | cons i is ih =>
    rw [List.foldl_cons, ih fun j hj => h j (List.mem_cons_of_mem _ hj),
      exec_of_generated (h i List.mem_cons_self)]

/-- Code changes only the values that it defines. -/
theorem env_foldl {v : ValueId} (h : ∀ i ∈ is, i.result ≠ some v) :
    (is.foldl (m.exec source entry) t).env v = t.env v := by
  induction is generalizing t with
  | nil => rfl
  | cons i is ih =>
    rw [List.foldl_cons, ih fun j hj => h j (List.mem_cons_of_mem _ hj)]
    unfold exec
    split
    · exact assign_of_ne (h i List.mem_cons_self)
    · exact assign_of_ne (h i List.mem_cons_self)

/-- What a generated instruction with a result computes. -/
theorem env_exec_emit {c : Counters} {op : Op} {ty : Ty} (h : m.given.instr ≤ c.instr)
    (v : ValueId) : (m.exec source entry t (c.emit op ty)).env v =
      if v = ⟨c.value⟩ then m.compute source entry t.env (c.emit op ty) else t.env v := by
  rw [exec_of_generated h]
  exact Function.update_apply _ _ _ _

end Machine

/-! ### What a loop computes -/

/-- The code of a loop counts the iterations from zero up to the size of the group, and compares
the number of each with the rank of the thread. -/
structure LoopCode.Counts (code : LoopCode) (m : Machine width δ) (pred : BlockId) (plan : Plan)
    (zero next : ValueId) : Prop where
  opening : ∀ source t, (m.run source t code.opening).env zero = .int 0
  head : ∀ source t k, m.select t.env source [(pred, zero), (code.tail, next)] = .int k →
    t.env plan.rank = .int m.rank →
      (m.run source t code.head).env code.induction = .int k ∧
        (m.run source t code.head).env code.turn = .bool (m.rank = k)
  back : ∀ source t k, t.env code.induction = .int k → t.env plan.size = .int m.size →
    (m.run source t code.back).env next = .int (k + 1) ∧
      (m.run source t code.back).env code.done = .bool (m.size ≤ k + 1)

section

variable {plan : Plan} {c : Counters} {source : Option BlockId} {entry : ValueId → Datum width δ}
  {t : Thread width δ}

/-- The rank keeps its value when it is converted. -/
theorem Plan.env_convert (hgiven : m.given.instr ≤ c.instr)
    (hknown : t.env plan.rank = .int m.rank) :
    ((plan.convert c).instrs.foldl (m.exec source entry) t).env (plan.convert c).value =
      .int m.rank := by
  unfold convert
  split
  · exact hknown
  · rw [List.foldl_cons, List.foldl_nil, Machine.env_exec_emit hgiven, if_pos rfl]
    exact hknown

/-- A smaller value is not touched when the rank is converted. -/
theorem Plan.env_convert_of_lt (hgiven : m.given.instr ≤ c.instr) {v : ValueId}
    (hv : v.index < c.value) :
    ((plan.convert c).instrs.foldl (m.exec source entry) t).env v = t.env v := by
  unfold convert
  split
  · rfl
  · rw [List.foldl_cons, List.foldl_nil, Machine.env_exec_emit hgiven, if_neg]
    rintro rfl
    exact Nat.lt_irrefl _ hv

variable {k : BitVec width} {ty : Ty}

/-- In front of the loop, zero is the first new value. -/
theorem Machine.env_opening (hgiven : m.given.instr ≤ c.instr) (hwidth : ty.width? = some width) :
    (m.run source t (Region.opening ty c)).env ⟨c.value⟩ = .int 0 := by
  have hrest : ∀ t' : Thread width δ,
      ((Region.opening ty c).tail.foldl (m.exec source t.env) t').env ⟨c.value⟩ =
        t'.env ⟨c.value⟩ := by
    intro t'
    refine env_foldl ?_
    simp [Region.opening, Counters.emit, Counters.step]
  refine (hrest _).trans ((env_exec_emit hgiven _).trans ?_)
  rw [if_pos rfl]
  show (if _ then _ else _) = _
  rw [if_pos hwidth]
  rfl

/-- The header knows the number of the iteration, and whether it is the turn of the thread. -/
theorem Machine.env_head {incoming : List (BlockId × ValueId)} {zero : ValueId}
    (hgiven : m.given.instr ≤ c.instr) (hrank : plan.rank.index < c.value)
    (hsel : m.select t.env source incoming = .int k) (hknown : t.env plan.rank = .int m.rank) :
    let rank := plan.convert c.step
    let turn := TurnGuard.rankEqualsIteration.test rank.value plan.size zero ⟨c.value⟩ ty rank.next
    let t' := m.run source t (c.emit (.phi incoming) ty :: (rank.instrs ++ turn.instrs))
    t'.env ⟨c.value⟩ = .int k ∧ t'.env turn.value = .bool (m.rank = k) := by
  intro rank turn t'
  have hemits := plan.emits_convert c.step
  have hvalue : c.value + 1 ≤ rank.next.value := hemits.value_le
  have hinstr : c.instr + 1 ≤ rank.next.instr := hemits.instr_le
  have hgiven₁ : m.given.instr ≤ c.step.instr := Nat.le_succ_of_le hgiven
  -- the phi node, the conversion of the rank, the test
  let t₁ := m.exec source t.env t (c.emit (.phi incoming) ty)
  let t₂ := rank.instrs.foldl (m.exec source t.env) t₁
  have hphi : ∀ v, t₁.env v = if v = ⟨c.value⟩ then .int k else t.env v := by
    intro v
    rw [← hsel]
    exact env_exec_emit hgiven v
  have hrank₂ : t₂.env rank.value = .int m.rank := by
    refine Plan.env_convert hgiven₁ ?_
    rw [hphi, if_neg, hknown]
    intro heq
    rw [heq] at hrank
    exact Nat.lt_irrefl _ hrank
  have hind₂ : t₂.env ⟨c.value⟩ = .int k := by
    refine (Plan.env_convert_of_lt hgiven₁ (Nat.lt_succ_self _)).trans ?_
    rw [hphi, if_pos rfl]
  have hlast : ∀ v, t'.env v =
      if v = ⟨rank.next.value⟩ then .bool (m.rank = k) else t₂.env v := by
    intro v
    show (m.run source t (_ :: (_ ++ _))).env v = _
    rw [run, List.foldl_cons, List.foldl_append]
    refine (env_exec_emit (by omega) v).trans ?_
    show (if _ then m.operate .eq (t₂.env rank.value) (t₂.env ⟨c.value⟩) else _) = _
    rw [hrank₂, hind₂]
    rfl
  constructor
  · rw [hlast, if_neg, hind₂]
    intro heq
    have hsame := ValueId.mk.inj heq
    omega
  · exact (hlast ⟨rank.next.value⟩).trans (if_pos rfl)

/-- The tail knows the number of the next iteration, and whether there is one. -/
theorem Machine.env_back {induction size : ValueId} (hgiven : m.given.instr ≤ c.instr)
    (hwidth : ty.width? = some width) (hinduction : induction.index < c.value)
    (hsize : size.index < c.value) (hind : t.env induction = .int k)
    (hknown : t.env size = .int m.size) :
    let t' := m.run source t [c.emit (.const (.int 1 ty)) ty,
      c.step.emit (.binary .add induction ⟨c.value⟩) ty,
      c.step.step.emit (.binary .uge ⟨c.value + 1⟩ size) .bool]
    t'.env ⟨c.value + 1⟩ = .int (k + 1) ∧ t'.env ⟨c.value + 2⟩ = .bool (m.size ≤ k + 1) := by
  intro t'
  have hgiven₁ : m.given.instr ≤ c.step.instr := Nat.le_succ_of_le hgiven
  let t₁ := m.exec source t.env t (c.emit (.const (.int 1 ty)) ty)
  let t₂ := m.exec source t.env t₁ (c.step.emit (.binary .add induction ⟨c.value⟩) ty)
  have hone : ∀ v, t₁.env v = if v = ⟨c.value⟩ then .int 1 else t.env v := by
    intro v
    refine (env_exec_emit hgiven v).trans ?_
    show (if _ then (if _ then _ else _) else _) = _
    rw [if_pos hwidth]
    rfl
  have hone_of_lt : ∀ v : ValueId, v.index < c.value → t₁.env v = t.env v := by
    intro v hv
    rw [hone, if_neg]
    rintro rfl
    exact Nat.lt_irrefl _ hv
  have hadd : ∀ v, t₂.env v = if v = ⟨c.value + 1⟩ then .int (k + 1) else t₁.env v := by
    intro v
    refine (env_exec_emit hgiven₁ v).trans ?_
    show (if _ then m.operate .add (t₁.env induction) (t₁.env ⟨c.value⟩) else _) = _
    rw [hone_of_lt _ hinduction, hind, hone ⟨c.value⟩, if_pos rfl]
    rfl
  have hsize₂ : t₂.env size = .int m.size := by
    rw [hadd, if_neg, hone_of_lt _ hsize, hknown]
    rintro rfl
    exact absurd hsize (Nat.not_lt.2 (Nat.le_succ _))
  have hlast : ∀ v, t'.env v =
      if v = ⟨c.value + 2⟩ then .bool (m.size ≤ k + 1) else t₂.env v := by
    intro v
    refine (env_exec_emit (Nat.le_succ_of_le hgiven₁) v).trans ?_
    show (if _ then m.operate .uge (t₂.env ⟨c.value + 1⟩) (t₂.env size) else _) = _
    rw [hsize₂, hadd ⟨c.value + 1⟩, if_pos rfl]
    rfl
  refine ⟨?_, (hlast ⟨c.value + 2⟩).trans (if_pos rfl)⟩
  rw [hlast, if_neg, hadd, if_pos rfl]
  intro heq
  exact absurd (ValueId.mk.inj heq) (by omega)

/-- The code of a loop counts the iterations. -/
theorem Region.counts_code (r : Region) (hgiven : m.given.instr ≤ c.instr)
    (hwidth : plan.sizeTy.width? = some width) (hrank : plan.rank.index < c.value)
    (hsize : plan.size.index < c.value) :
    ∃ zero next, (r.code .rankEqualsIteration plan c).Counts m r.pred plan zero next := by
  let rank := plan.convert ⟨c.block + 2, c.value + 3, c.instr + 4⟩
  let turn := TurnGuard.rankEqualsIteration.test rank.value plan.size ⟨c.value⟩ ⟨c.value + 2⟩
    plan.sizeTy rank.next
  have hemits := (plan.emits_convert ⟨c.block + 2, c.value + 3, c.instr + 4⟩).append
    (TurnGuard.rankEqualsIteration.emits_test rank.value plan.size ⟨c.value⟩ ⟨c.value + 2⟩
      plan.sizeTy rank.next)
  have hvalue : c.value + 3 ≤ turn.next.value := hemits.value_le
  have hinstr : c.instr + 4 ≤ turn.next.instr := hemits.instr_le
  refine ⟨⟨c.value⟩, ⟨turn.next.value + 1⟩, ⟨fun source t => ?_, fun source t k hsel hknown => ?_,
    fun source t k hind hknown => ?_⟩⟩
  · exact Machine.env_opening hgiven hwidth
  · have hphi : m.given.instr ≤ c.instr + 3 := by omega
    exact Machine.env_head (c := ⟨c.block + 2, c.value + 2, c.instr + 3⟩) hphi (by simp only; omega)
      hsel hknown
  · have hback : m.given.instr ≤ turn.next.instr := by omega
    have hinduction : c.value + 2 < turn.next.value := by omega
    have hsize' : plan.size.index < turn.next.value := by omega
    exact Machine.env_back hback hwidth hinduction hsize' hind hknown

end

/-! ### Going round -/

/-- The successor of an integer that is not the greatest. -/
theorem toNat_succ_of_lt {x y : BitVec width} (h : x.toNat < y.toNat) :
    (x + 1).toNat = x.toNat + 1 := by
  have hy := y.isLt
  have hone : (BitVec.ofNat width 1).toNat = 1 := by
    rw [BitVec.toNat_ofNat]
    exact Nat.mod_eq_of_lt (by omega)
  show (x + BitVec.ofNat width 1).toNat = _
  rw [BitVec.toNat_add, hone]
  exact Nat.mod_eq_of_lt (by omega)

/-- The rank of the thread and the size of the group are known. -/
def Machine.Knows (m : Machine width δ) (plan : Plan) (env : ValueId → Datum width δ) : Prop :=
  env plan.rank = .int m.rank ∧ env plan.size = .int m.size

/-- On the first edge into a loop its phi node selects the first value. -/
theorem Machine.select_first (m : Machine width δ) {env : ValueId → Datum width δ} {a b : BlockId}
    {u v : ValueId} : m.select env (some a) [(a, u), (b, v)] = env u := by
  simp [select]

/-- On the edge back its phi node selects the second value. -/
theorem Machine.select_second (m : Machine width δ) {env : ValueId → Datum width δ} {a b : BlockId}
    {u v : ValueId} (h : a ≠ b) : m.select env (some b) [(a, u), (b, v)] = env v := by
  simp [select, h]

/-- What the code of a loop does not change. -/
structure Wrap.Keeps (w : Wrap) (t t' : Thread width δ) : Prop where
  trace : t'.trace = t.trace
  env : ∀ v, (∀ i ∈ w.code.head ++ w.code.back, i.result ≠ some v) → t'.env v = t.env v

theorem Wrap.Keeps.trans {w : Wrap} {t t' t'' : Thread width δ} (h : w.Keeps t t')
    (h' : w.Keeps t' t'') : w.Keeps t t'' :=
  ⟨h'.trace.trans h.trace, fun v hv => (h'.env v hv).trans (h.env v hv)⟩

namespace Func

/-- A thread at the first point comes to the second one. -/
def Leads (f : Func) (m : Machine width δ) (p p' : Point width δ) : Prop :=
  ∀ e, f.Ends m p' e → f.Ends m p e

theorem Leads.trans {f : Func} {p p' p'' : Point width δ} (h : f.Leads m p p')
    (h' : f.Leads m p' p'') : f.Leads m p p'' := fun e he => h e (h' e he)

/-- A function with loops in which each thread takes its turn, and a thread of it. -/
structure Turning (f : Func) (plan : Plan) (ws : List Wrap) (next : Counters)
    (m : Machine width δ) : Prop
    extends Func.Loopable f .rankEqualsIteration plan ws next where
  block_given : m.given.block ≤ f.next.block
  instr_given : m.given.instr = f.next.instr
  width_eq : plan.sizeTy.width? = some width
  rank_lt : plan.rank.index < f.next.value
  size_lt : plan.size.index < f.next.value
  turn : m.rank < m.size

namespace Turning

variable {f : Func} {plan : Plan} {ws : List Wrap} {w : Wrap} {next : Counters}
  (h : f.Turning plan ws next m) (hw : w ∈ ws) (source : Option BlockId) {t : Thread width δ}
  (choices : List Nat)

include h hw

/-- The instructions of a loop are generated. -/
theorem generated {i : Instr} (hi : i ∈ w.code.instrs) : m.given.instr ≤ i.id.index :=
  h.instr_given ▸ h.instr_ge hw hi

/-- The code of a loop counts the iterations. -/
theorem counts : ∃ zero next', w.code.Counts m w.region.pred plan zero next' := by
  obtain ⟨c, hc, hvalue, hinstr⟩ := h.exists_code hw
  rw [hc]
  exact Region.counts_code _ (h.instr_given ▸ hinstr) h.width_eq (h.rank_lt.trans_le hvalue)
    (h.size_lt.trans_le hvalue)

theorem keeps_head : w.Keeps t (m.run source t w.code.head) :=
  ⟨Machine.trace_foldl fun _ hi => h.generated hw (w.code.mem_instrs.2.1 _ hi),
    fun _ hv => Machine.env_foldl fun i hi => hv i (List.mem_append_left _ hi)⟩

theorem keeps_back : w.Keeps t (m.run source t w.code.back) :=
  ⟨Machine.trace_foldl fun _ hi => h.generated hw (w.code.mem_instrs.2.2 _ hi),
    fun _ hv => Machine.env_foldl fun i hi => hv i (List.mem_append_right _ hi)⟩

/-- From the header, control goes to the region or to the tail. -/
theorem leads_header {value : Bool}
    (hturn : (m.run source t w.code.head).env w.code.turn = .bool value) :
    (f.looped ws next).Leads m ⟨w.code.header, source, t, choices⟩
      ⟨if value then w.region.start else w.code.tail, some w.code.header,
        m.run source t w.code.head, choices⟩ := by
  have hfresh := h.fresh_ge _ (Loopable.header_mem_fresh hw)
  exact fun e he => .go (h.block?_header hw) rfl
    (Machine.follow_condBranch (h.block_given.trans hfresh) rfl hturn) he

/-- From the tail, control leaves the loop or goes back to the header. -/
theorem leads_tail {value : Bool}
    (hdone : (m.run source t w.code.back).env w.code.done = .bool value) :
    (f.looped ws next).Leads m ⟨w.code.tail, source, t, choices⟩
      ⟨if value then w.region.succ else w.code.header, some w.code.tail,
        m.run source t w.code.back, choices⟩ := by
  have hfresh := h.fresh_ge _ (Loopable.tail_mem_fresh hw)
  exact fun e he => .go (h.block?_tail hw) rfl
    (Machine.follow_condBranch (h.block_given.trans hfresh) rfl hdone) he

/-- What a loop keeps of what it needs to know. -/
theorem knows_of_keeps {t' : Thread width δ} (hkeeps : w.Keeps t t')
    (hknown : m.Knows plan t.env) : m.Knows plan t'.env := by
  have hnew : ∀ {v : ValueId}, v.index < f.next.value →
      ∀ i ∈ w.code.head ++ w.code.back, i.result ≠ some v := fun hv i hi =>
    h.result_ne_of_lt hw hv (List.mem_append_right _ hi)
  exact ⟨(hkeeps.env _ (hnew h.rank_lt)).trans hknown.1,
    (hkeeps.env _ (hnew h.size_lt)).trans hknown.2⟩

/-- The header and the tail take a thread round until it is its turn. -/
theorem leads_turn {zero next' : ValueId} (hcounts : w.code.Counts m w.region.pred plan zero next')
    (distance : Nat) : ∀ (k : BitVec width) (source : Option BlockId) (t : Thread width δ),
      k.toNat + distance = m.rank.toNat →
      m.select t.env source [(w.region.pred, zero), (w.code.tail, next')] = .int k →
      m.Knows plan t.env →
      ∃ t', w.Keeps t t' ∧ t'.env w.code.induction = .int m.rank ∧
        (f.looped ws next).Leads m ⟨w.code.header, source, t, choices⟩
          ⟨w.region.start, some w.code.header, t', choices⟩ := by
  have hne : w.region.pred ≠ w.code.tail := fun heq => h.tail_not_mem hw (heq ▸ h.pred_mem hw)
  have hlt := BitVec.lt_def.1 h.turn
  induction distance with
  | zero =>
    intro k source t hk hsel hknown
    obtain ⟨hind, hturn⟩ := hcounts.head source t k hsel hknown.1
    obtain rfl : k = m.rank := BitVec.eq_of_toNat_eq hk
    refine ⟨_, h.keeps_head hw source, hind, ?_⟩
    have hleads := h.leads_header hw _ choices hturn
    rwa [decide_eq_true rfl, if_pos rfl] at hleads
  | succ distance ih =>
    intro k source t hk hsel hknown
    obtain ⟨hind, hturn⟩ := hcounts.head source t k hsel hknown.1
    have hnot : m.rank ≠ k := by
      rintro rfl
      omega
    have hheader := h.leads_header hw _ choices hturn
    rw [decide_eq_false hnot, if_neg Bool.false_ne_true] at hheader
    have hknown₁ := h.knows_of_keeps hw (h.keeps_head hw source) hknown
    obtain ⟨hnext, hdone⟩ := hcounts.back (some w.code.header) _ k hind hknown₁.2
    have hk₁ : (k + 1).toNat = k.toNat + 1 := toNat_succ_of_lt (y := m.size) (by omega)
    have htail := h.leads_tail hw _ choices hdone
    rw [decide_eq_false (by rw [BitVec.le_def, hk₁]; omega), if_neg Bool.false_ne_true] at htail
    have hkeeps₂ := (h.keeps_head hw source (t := t)).trans
      (h.keeps_back hw (some w.code.header))
    obtain ⟨t', hkeeps, hind', hleads⟩ := ih (k + 1) (some w.code.tail) _ (by omega)
      ((m.select_second hne).trans hnext) (h.knows_of_keeps hw hkeeps₂ hknown)
    exact ⟨t', hkeeps₂.trans hkeeps, hind', hheader.trans (htail.trans hleads)⟩

/-- The header and the tail take a thread round until all have had their turns. -/
theorem leads_rest {zero next' : ValueId} (hcounts : w.code.Counts m w.region.pred plan zero next')
    (distance : Nat) : ∀ (k : BitVec width) (source : Option BlockId) (t : Thread width δ),
      k.toNat + 1 + distance = m.size.toNat → m.rank.toNat ≤ k.toNat →
      t.env w.code.induction = .int k → m.Knows plan t.env →
      ∃ t', w.Keeps t t' ∧ (f.looped ws next).Leads m ⟨w.code.tail, source, t, choices⟩
        ⟨w.region.succ, some w.code.tail, t', choices⟩ := by
  have hne : w.region.pred ≠ w.code.tail := fun heq => h.tail_not_mem hw (heq ▸ h.pred_mem hw)
  induction distance with
  | zero =>
    intro k source t hk hle hind hknown
    obtain ⟨hnext, hdone⟩ := hcounts.back source t k hind hknown.2
    have hlt : k.toNat < m.size.toNat := by omega
    have hk₁ : (k + 1).toNat = k.toNat + 1 := toNat_succ_of_lt hlt
    refine ⟨_, h.keeps_back hw source, ?_⟩
    have htail := h.leads_tail hw _ choices hdone
    rwa [decide_eq_true (by rw [BitVec.le_def, hk₁]; omega), if_pos rfl] at htail
  | succ distance ih =>
    intro k source t hk hle hind hknown
    obtain ⟨hnext, hdone⟩ := hcounts.back source t k hind hknown.2
    have hlt : k.toNat < m.size.toNat := by omega
    have hk₁ : (k + 1).toNat = k.toNat + 1 := toNat_succ_of_lt hlt
    have htail := h.leads_tail hw _ choices hdone
    rw [decide_eq_false (by rw [BitVec.le_def, hk₁]; omega), if_neg Bool.false_ne_true] at htail
    have hknown₁ := h.knows_of_keeps hw (h.keeps_back hw source) hknown
    obtain ⟨hind₁, hturn⟩ := hcounts.head (some w.code.tail) _ (k + 1)
      ((m.select_second hne).trans hnext) hknown₁.1
    have hnot : m.rank ≠ k + 1 := by
      intro heq
      rw [heq, hk₁] at hle
      omega
    have hheader := h.leads_header hw _ choices hturn
    rw [decide_eq_false hnot, if_neg Bool.false_ne_true] at hheader
    have hkeeps₂ := (h.keeps_back hw source (t := t)).trans
      (h.keeps_head hw (some w.code.tail))
    obtain ⟨t', hkeeps, hleads⟩ := ih (k + 1) (some w.code.header) _ (by omega) (by omega) hind₁
      (h.knows_of_keeps hw hkeeps₂ hknown)
    exact ⟨t', hkeeps₂.trans hkeeps, htail.trans (hheader.trans hleads)⟩

/-- A thread that comes from the block in front of a region enters the region. -/
theorem leads_start (hknown : m.Knows plan t.env) :
    ∃ t', w.Keeps (m.run source t w.code.opening) t' ∧
      t'.env w.code.induction = .int m.rank ∧
        (f.looped ws next).Leads m
          ⟨w.code.header, some w.region.pred, m.run source t w.code.opening, choices⟩
          ⟨w.region.start, some w.code.header, t', choices⟩ := by
  obtain ⟨zero, next', hcounts⟩ := h.counts hw
  have hnew : ∀ {v : ValueId}, v.index < f.next.value →
      (m.run source t w.code.opening).env v = t.env v := fun hv =>
    Machine.env_foldl fun i hi => h.result_ne_of_lt hw hv (w.code.mem_instrs.1 i hi)
  have hsel := (m.select_first (a := w.region.pred) (b := w.code.tail) (v := next')).trans
    (hcounts.opening source t)
  exact h.leads_turn hw choices hcounts m.rank.toNat 0 _ _ (by simp) hsel
    ⟨(hnew h.rank_lt).trans hknown.1, (hnew h.size_lt).trans hknown.2⟩

/-- A thread that had its turn leaves the loop. -/
theorem leads_succ (hknown : m.Knows plan t.env) (hind : t.env w.code.induction = .int m.rank) :
    ∃ t', w.Keeps t t' ∧ (f.looped ws next).Leads m ⟨w.code.tail, source, t, choices⟩
      ⟨w.region.succ, some w.code.tail, t', choices⟩ := by
  obtain ⟨zero, next', hcounts⟩ := h.counts hw
  have hlt := BitVec.lt_def.1 h.turn
  exact h.leads_rest hw choices hcounts (m.size.toNat - (m.rank.toNat + 1)) m.rank _ _ (by omega)
    (Nat.le_refl _) hind hknown

end Turning

end Func

end BarrierLowering
