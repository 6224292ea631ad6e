import BarrierLowering.Proofs.LoopShape
import BarrierLowering.Proofs.Tours

/-!
# How often a loop goes round

On a tour through a loop the header counts the iterations up from zero, and control enters the
region in the turns of the thread. A tour is followed from block to block: in each of them it is
known which iteration comes next, and which may be the next turn.

## Main definitions

* `Tour.Counts` — what a function has to do for a loop to count.
* `Tour.Phase` — where a thread is on a tour.

## Main results

* `Tour.Counts.step` — from one block to the next, the loop goes on counting.
* `Func.Loopable.counts` — the loops of a function with loops count.
* `Plan.wraps_count` — how often each generated loop goes round, and with which turns.
-/

namespace BarrierLowering

variable {width : Nat} {δ : Type}

/-! ### Going round -/

namespace Tour

variable {t : Tour width δ} {f : Func} {guard : TurnGuard} {vs : Values} {turn done : ValueId}
  {s s' : Stay width δ} {ss : List (Stay width δ)} {b : BlockId} {i j k : Nat}

/-- What is known from the block in front of the loop on. -/
structure Holds (t : Tour width δ) (vs : Values) (env : ValueId → Datum width δ) : Prop
    extends t.Knows env where
  zero : env vs.zero = .int 0

/-- What a function has to do for a loop to count: what its blocks compute, and where control goes
from them. -/
structure Counts (t : Tour width δ) (f : Func) (guard : TurnGuard) (vs : Values)
    (turn done : ValueId) : Prop where
  width_pos : 0 < width
  pred_ne_tail : t.loop.pred ≠ t.loop.tail
  header_ne_tail : t.loop.header ≠ t.loop.tail
  header_ne_body : t.loop.header ≠ t.loop.body
  header_ne_succ : t.loop.header ≠ t.loop.succ
  tail_ne_body : t.loop.tail ≠ t.loop.body
  opens : ∀ {source entry s}, t.Executes f source entry s → s.block = t.loop.pred →
    s.env vs.zero = .int 0
  turns : ∀ {source entry s k}, t.Executes f source entry s → s.block = t.loop.header →
    t.Holds vs entry →
      (source = t.loop.pred ∧ k = 0 ∨ source = t.loop.tail ∧ entry vs.next = .int k) →
        t.Holds vs s.env ∧ s.env t.loop.induction = .int k ∧
          s.env turn = .bool (guard.turns t.rank t.size k)
  counts : ∀ {source entry s k}, t.Executes f source entry s → s.block = t.loop.tail →
    t.Holds vs entry → entry t.loop.induction = .int k →
      t.Holds vs s.env ∧ s.env t.loop.induction = .int k ∧ s.env vs.one = .int 1 ∧
        s.env vs.next = .int (k + 1) ∧ s.env done = .bool (t.size ≤ k + 1)
  keeps : ∀ {source entry s}, t.Executes f source entry s →
    s.block ∉ [t.loop.pred, t.loop.header, t.loop.tail] → t.Holds vs entry →
      t.Holds vs s.env ∧ s.env t.loop.induction = entry t.loop.induction
  from_pred : ∀ {s b}, t.Goes f s b → s.block = t.loop.pred → b = t.loop.header
  from_header : ∀ {s b value}, t.Goes f s b → s.block = t.loop.header →
    s.env turn = .bool value → b = if value then t.loop.body else t.loop.tail
  from_tail : ∀ {s b value}, t.Goes f s b → s.block = t.loop.tail →
    s.env done = .bool value → b = if value then t.loop.succ else t.loop.header
  to_header : ∀ {s}, t.Goes f s t.loop.header → s.block = t.loop.pred ∨ s.block = t.loop.tail
  to_body : ∀ {s}, t.Goes f s t.loop.body → s.block = t.loop.header
  to_succ : ∀ {s}, t.Goes f s t.loop.succ → s.block = t.loop.tail
  sums : ∀ b ∈ [t.loop.pred, t.loop.header, t.loop.tail], ∀ i ∈ f.instrsOf b,
    t.given ≤ i.id.index → ∀ left right, i.op = .binary .add left right →
      b = t.loop.tail ∧ left = t.loop.induction ∧ right = vs.one

/-- How often the loop goes round. -/
def rounds (t : Tour width δ) : Nat := max 1 t.size.toNat

/-- The iterations from `i` on. -/
def rest (t : Tour width δ) (i : Nat) : List Nat := List.range' i (t.rounds - i)

/-- Whether an iteration is a turn of the thread. -/
def isTurn (t : Tour width δ) (guard : TurnGuard) (k : Nat) : Bool :=
  guard.turns t.rank t.size (BitVec.ofNat width k)

/-- Some iterations, as the loop counts them. -/
def numbers (width : Nat) (δ : Type) (ks : List Nat) : List (Datum width δ) :=
  ks.map fun k => .int (BitVec.ofNat width k)

/-- Where a thread is on its tour, with the next iteration and the first one that may still be a
turn. -/
inductive Phase (t : Tour width δ) (guard : TurnGuard) (vs : Values) (turn done : ValueId)
    (s : Stay width δ) : Nat → Nat → Prop
  /-- In front of the loop. -/
  | opened : s.block = t.loop.pred → t.Holds vs s.env → Phase t guard vs turn done s 0 0
  /-- In the header. -/
  | header {k : Nat} : s.block = t.loop.header → k < t.rounds → t.Holds vs s.env →
      s.env t.loop.induction = .int (BitVec.ofNat width k) →
      s.env turn = .bool (t.isTurn guard k) → Phase t guard vs turn done s (k + 1) k
  /-- In the region. -/
  | inside {k : Nat} : s.block ∉ [t.loop.pred, t.loop.header, t.loop.tail] → k < t.rounds →
      t.Holds vs s.env → s.env t.loop.induction = .int (BitVec.ofNat width k) →
      Phase t guard vs turn done s (k + 1) (k + 1)
  /-- In the tail. -/
  | tail {k : Nat} : s.block = t.loop.tail → k < t.rounds → t.Holds vs s.env →
      s.env t.loop.induction = .int (BitVec.ofNat width k) → s.env vs.one = .int 1 →
      s.env vs.next = .int (BitVec.ofNat width (k + 1)) →
      s.env done = .bool (t.rounds ≤ k + 1) → Phase t guard vs turn done s (k + 1) (k + 1)

theorem rest_of_lt (h : i < t.rounds) : t.rest i = i :: t.rest (i + 1) := by
  rw [rest, rest, show t.rounds - i = t.rounds - (i + 1) + 1 by omega, List.range'_succ]

theorem rest_of_le (h : t.rounds ≤ i) : t.rest i = [] := by
  rw [rest, Nat.sub_eq_zero_of_le h, List.range'_zero]

/-- The loop never counts farther than its type goes. -/
theorem rounds_lt (t : Tour width δ) (h : 0 < width) : t.rounds < 2 ^ width :=
  max_lt (Nat.one_lt_two_pow h.ne') t.size.isLt

theorem toNat_number (hwidth : 0 < width) (h : k ≤ t.rounds) :
    (BitVec.ofNat width k).toNat = k := by
  rw [BitVec.toNat_ofNat, Nat.mod_eq_of_lt (h.trans_lt (t.rounds_lt hwidth))]

/-- The comparison in the tail tells whether the next iteration is past the last. -/
theorem size_le_iff (hwidth : 0 < width) (h : k < t.rounds) :
    t.size ≤ BitVec.ofNat width k + 1 ↔ t.rounds ≤ k + 1 := by
  have hnext : BitVec.ofNat width k + 1 = BitVec.ofNat width (k + 1) := (BitVec.ofNat_add k 1).symm
  rw [hnext, BitVec.le_def, toNat_number hwidth h, rounds, max_le_iff]
  omega

theorem counter_singleton (s : Stay width δ) (b : BlockId) :
    t.counter b [s] = if s.block = b then [s.env t.loop.induction] else [] := by
  unfold counter
  split <;> simp [*]

theorem counter_cons (s : Stay width δ) (ss : List (Stay width δ)) (b : BlockId) :
    t.counter b (s :: ss) = t.counter b [s] ++ t.counter b ss := by
  simp only [counter, List.filter_cons]
  split <;> rfl

namespace Counts

/-- The header of the next iteration. -/
theorem phase_header (h : t.Counts f guard vs turn done) (hexec : t.Executes f s.block s.env s')
    (hblock : s'.block = t.loop.header) (hk : k < t.rounds) (hholds : t.Holds vs s.env)
    (hcomes : s.block = t.loop.pred ∧ k = 0 ∨
      s.block = t.loop.tail ∧ s.env vs.next = .int (BitVec.ofNat width k)) :
    t.Phase guard vs turn done s' (k + 1) k ∧
      s'.env t.loop.induction = .int (BitVec.ofNat width k) := by
  obtain ⟨hholds', hind, hturn⟩ := h.turns (k := BitVec.ofNat width k) hexec hblock hholds
    (hcomes.imp_left fun ⟨hpred, hzero⟩ => ⟨hpred, by rw [hzero]; rfl⟩)
  exact ⟨.header hblock hk hholds' hind hturn, hind⟩

/-- The tail of an iteration. -/
theorem phase_tail (h : t.Counts f guard vs turn done) (hexec : t.Executes f s.block s.env s')
    (hblock : s'.block = t.loop.tail) (hk : k < t.rounds) (hholds : t.Holds vs s.env)
    (hind : s.env t.loop.induction = .int (BitVec.ofNat width k)) :
    t.Phase guard vs turn done s' (k + 1) (k + 1) := by
  obtain ⟨hholds', hind', hone, hnext, hdone⟩ := h.counts hexec hblock hholds hind
  refine .tail hblock hk hholds' hind' hone ?_ ?_
  · exact hnext.trans (congrArg Datum.int (BitVec.ofNat_add k 1).symm)
  · rw [hdone, decide_eq_decide.2 (size_le_iff h.width_pos hk)]

/-- From one block to the next, the loop goes on counting: what the header counts is the next
iteration, and control enters the region in the next turn. -/
theorem step (h : t.Counts f guard vs turn done) (hphase : t.Phase guard vs turn done s i j)
    (hgoes : t.Goes f s s'.block) (hexec : t.Executes f s.block s.env s')
    (hpred : s'.block ≠ t.loop.pred) (hsucc : s'.block ≠ t.loop.succ) :
    ∃ i' j', t.Phase guard vs turn done s' i' j' ∧
      t.counter t.loop.header [s'] ++ numbers width δ (t.rest i') = numbers width δ (t.rest i) ∧
      t.counter t.loop.body [s'] ++ numbers width δ ((t.rest j').filter (t.isTurn guard)) =
        numbers width δ ((t.rest j).filter (t.isTurn guard)) := by
  cases hphase with
  | opened hblock hholds =>
    have hheader := h.from_pred hgoes hblock
    have hpos : 0 < t.rounds := Nat.lt_of_lt_of_le Nat.one_pos (le_max_left _ _)
    obtain ⟨hphase, hind⟩ := h.phase_header hexec hheader hpos hholds (.inl ⟨hblock, rfl⟩)
    refine ⟨1, 0, hphase, ?_, ?_⟩
    · rw [counter_singleton, if_pos hheader, hind, rest_of_lt hpos]
      rfl
    · rw [counter_singleton, if_neg (hheader ▸ h.header_ne_body)]
      rfl
  | header hblock hk hholds hind hturn =>
    have hnext := h.from_header hgoes hblock hturn
    cases hisTurn : t.isTurn guard j with
    | true =>
      rw [hisTurn, if_pos rfl] at hnext
      have hout : s'.block ∉ [t.loop.pred, t.loop.header, t.loop.tail] := by
        simp only [List.mem_cons, List.not_mem_nil, or_false, not_or]
        exact ⟨hpred, hnext ▸ h.header_ne_body.symm, hnext ▸ h.tail_ne_body.symm⟩
      obtain ⟨hholds', hkeep⟩ := h.keeps hexec hout hholds
      refine ⟨j + 1, j + 1, .inside hout hk hholds' (hkeep.trans hind), ?_, ?_⟩
      · rw [counter_singleton, if_neg (hnext ▸ h.header_ne_body.symm)]
        rfl
      · rw [counter_singleton, if_pos hnext, hkeep, hind, rest_of_lt hk,
          List.filter_cons_of_pos hisTurn]
        rfl
    | false =>
      rw [hisTurn, if_neg Bool.false_ne_true] at hnext
      refine ⟨j + 1, j + 1, h.phase_tail hexec hnext hk hholds hind, ?_, ?_⟩
      · rw [counter_singleton, if_neg (hnext ▸ h.header_ne_tail.symm)]
        rfl
      · rw [counter_singleton, if_neg (hnext ▸ h.tail_ne_body), rest_of_lt hk,
          List.filter_cons_of_neg (by rw [hisTurn]; exact Bool.false_ne_true)]
        rfl
  | @inside k hblock hk hholds hind =>
    simp only [List.mem_cons, List.not_mem_nil, or_false, not_or] at hblock
    obtain ⟨hpred', hheader', htail'⟩ := hblock
    -- the header and the first block of the region are not entered from inside the region
    have hheader : s'.block ≠ t.loop.header := fun heq =>
      (h.to_header (heq ▸ hgoes)).elim hpred' htail'
    have hbody : s'.block ≠ t.loop.body := fun heq => hheader' (h.to_body (heq ▸ hgoes))
    have hsame : ∀ l : List (Datum width δ), t.counter t.loop.header [s'] ++ l = l ∧
        t.counter t.loop.body [s'] ++ l = l := by
      intro l
      rw [counter_singleton, counter_singleton, if_neg hheader, if_neg hbody]
      exact ⟨rfl, rfl⟩
    by_cases htail : s'.block = t.loop.tail
    · exact ⟨k + 1, k + 1, h.phase_tail hexec htail hk hholds hind, (hsame _).1, (hsame _).2⟩
    · have hout : s'.block ∉ [t.loop.pred, t.loop.header, t.loop.tail] := by
        simp [hpred, hheader, htail]
      obtain ⟨hholds', hkeep⟩ := h.keeps hexec hout hholds
      exact ⟨k + 1, k + 1, .inside hout hk hholds' (hkeep.trans hind), (hsame _).1, (hsame _).2⟩
  | @tail k hblock hk hholds hind hone hnext hdone =>
    have hto := h.from_tail hgoes hblock hdone
    by_cases hlast : t.rounds ≤ k + 1
    · rw [decide_eq_true hlast, if_pos rfl] at hto
      exact absurd hto hsucc
    · rw [decide_eq_false hlast, if_neg Bool.false_ne_true] at hto
      have hk' := Nat.not_le.1 hlast
      obtain ⟨hphase, hind'⟩ := h.phase_header hexec hto hk' hholds (.inr ⟨hblock, hnext⟩)
      refine ⟨k + 2, k + 1, hphase, ?_, ?_⟩
      · rw [counter_singleton, if_pos hto, hind', rest_of_lt hk']
        rfl
      · rw [counter_singleton, if_neg (hto ▸ h.header_ne_body)]
        rfl

/-- No sum is too great in any phase. -/
theorem sumsFit (h : t.Counts f guard vs turn done) (hphase : t.Phase guard vs turn done s i j) :
    t.SumsFit f s := by
  intro hblock x hx hgiven left right hop
  obtain ⟨htail, rfl, rfl⟩ := h.sums _ hblock x hx hgiven left right hop
  cases hphase with
  | opened hpred => exact absurd (hpred.symm.trans htail) h.pred_ne_tail
  | header hheader => exact absurd (hheader.symm.trans htail) h.header_ne_tail
  | inside hout => exact absurd hblock hout
  | @tail k _ hk _ hind hone =>
    refine ⟨_, _, hind, hone, ?_⟩
    have hnumber : (BitVec.ofNat width 1).toNat = 1 :=
      toNat_number (t := t) h.width_pos (le_max_left _ _)
    have hone' : (1 : BitVec width).toNat = 1 := hnumber
    rw [toNat_number h.width_pos hk.le, hone']
    exact lt_of_le_of_lt hk (t.rounds_lt h.width_pos)

/-- The loop counts to its end, and the thread takes all its turns. -/
theorem onward (h : t.Counts f guard vs turn done) (honward : t.Onward f s ss)
    (hphase : t.Phase guard vs turn done s i j) :
    t.counter t.loop.header ss = numbers width δ (t.rest i) ∧
      t.counter t.loop.body ss = numbers width δ ((t.rest j).filter (t.isTurn guard)) ∧
      ∀ s' ∈ s :: ss, t.SumsFit f s' := by
  induction honward generalizing i j with
  | @arrive s hgoes =>
    have hfit := h.sumsFit hphase
    have htail := h.to_succ hgoes
    cases hphase with
    | opened hpred => exact absurd (hpred.symm.trans htail) h.pred_ne_tail
    | header hheader => exact absurd (hheader.symm.trans htail) h.header_ne_tail
    | inside hout => exact absurd (by simp [htail]) hout
    | @tail k _ hk _ _ _ _ hdone =>
      have hto := h.from_tail hgoes htail hdone
      have hlast : t.rounds ≤ k + 1 := by
        by_contra hnot
        rw [decide_eq_false hnot, if_neg Bool.false_ne_true] at hto
        exact h.header_ne_succ hto.symm
      rw [rest_of_le hlast]
      exact ⟨rfl, rfl, List.forall_mem_singleton.2 hfit⟩
  | @stay s u ss hgoes hexec hpred hsucc _ ih =>
    obtain ⟨i', j', hphase', hheader, hbody⟩ := h.step hphase hgoes hexec hpred hsucc
    obtain ⟨hheaders, hbodies, hfit⟩ := ih hphase'
    refine ⟨?_, ?_, List.forall_mem_cons.2 ⟨h.sumsFit hphase, hfit⟩⟩
    · rw [counter_cons, hheaders, hheader]
    · rw [counter_cons, hbodies, hbody]

end Counts

end Tour

/-! ### The loops of a function -/

namespace Tour

variable {t : Tour width δ} {f : Func} {vs : Values} {s : Stay width δ} {b source : BlockId}
  {entry env env' : ValueId → Datum width δ} {is : List Instr}

/-- Code that defines other values keeps what is known. -/
theorem Holds.of_passes {yields : (ValueId → Datum width δ) → Instr → Datum width δ → Prop}
    (hholds : t.Holds vs env) (h : Passes yields env is env')
    (hrank : ∀ i ∈ is, i.result ≠ some t.plan.rank) (hsize : ∀ i ∈ is, i.result ≠ some t.plan.size)
    (hzero : ∀ i ∈ is, i.result ≠ some vs.zero) : t.Holds vs env' := by
  refine ⟨⟨?_, ?_⟩, ?_⟩
  · rw [h.env_eq hrank]
    exact hholds.rank
  · rw [h.env_eq hsize]
    exact hholds.size
  · rw [h.env_eq hzero]
    exact hholds.zero

/-- In the other blocks the queries are answered as before. -/
theorem Holds.of_yields (hholds : t.Holds vs env)
    (hb : b ∉ [t.loop.pred, t.loop.header, t.loop.tail])
    (h : Passes (t.Yields b source entry) env is env')
    (hzero : ∀ i ∈ is, i.result ≠ some vs.zero) : t.Holds vs env' := by
  have hyields : ∀ {i env d}, t.Yields b source entry env i d →
      (i.result = some t.plan.rank → t.IsRank d) ∧
        (i.result = some t.plan.size → d = .int t.size) := by
    intro i env d hd
    unfold Yields at hd
    rwa [if_neg fun hgen => hb hgen.2] at hd
  refine ⟨⟨?_, ?_⟩, ?_⟩
  · exact h.keeps (P := t.IsRank) (fun i _ hres env d hd => (hyields hd).1 hres) hholds.rank
  · exact h.keeps (P := (· = .int t.size))
      (fun i _ hres env d hd => (hyields hd).2 hres) hholds.size
  · rw [h.env_eq hzero]
    exact hholds.zero

end Tour

namespace Func

variable {f : Func} {guard : TurnGuard} {plan : Plan} {ws : List Wrap} {w : Wrap} {next : Counters}

theorem width_pos_of_width? {ty : Ty} (h : ty.width? = some width) : 0 < width := by
  unfold Ty.width? at h
  split at h <;> cases h <;> decide

/-- A value that one block defines is defined in no other block. -/
theorem result_ne_of_mem {b b' : BlockId} {blk blk' : Block} {i : Instr} {v : ValueId}
    (hnd : f.results.Nodup) (hblk : f.block? b = some blk) (hi : i ∈ blk.instrs)
    (hv : i.result = some v) (hblk' : f.block? b' = some blk') (hne : b' ≠ b) :
    ∀ j ∈ blk'.instrs, j.result ≠ some v := by
  intro j hj hjv
  obtain ⟨is, is', his⟩ := List.append_of_mem hi
  obtain ⟨js, js', hjs⟩ := List.append_of_mem hj
  obtain ⟨hmem, rfl⟩ := block?_mem hblk
  obtain ⟨hmem', rfl⟩ := block?_mem hblk'
  exact hne (congrArg Block.id (definition_unique hnd hmem' hmem hjs his hjv hv).1)

namespace Loopable

/-- The block in front of a region with the code in front of the loop. -/
theorem exists_block?_pred (h : f.Loopable guard plan ws next) (hw : w ∈ ws) :
    ∃ blk x, f.block? w.region.pred = some blk ∧
      (f.looped ws next).block? w.region.pred = some x ∧
        x.instrs = blk.instrs ++ w.code.opening := by
  obtain ⟨blk, hblk⟩ := mem_blockIds_iff.1 (h.pred_mem hw)
  refine ⟨blk, _, hblk, h.block?_old hblk, ?_⟩
  rw [Block.inner, (block?_mem hblk).2, h.filter_pred hw, List.flatMap_singleton]

/-- The sums in the code of a loop. -/
theorem sums {t : Tour width δ} {vs : Tour.Values} (h : f.Loopable guard plan ws next)
    (hw : w ∈ ws) (hcode : t.CodeCounts guard w.code w.region.pred vs) {b : BlockId}
    (hb : b ∈ [w.region.pred, w.code.header, w.code.tail]) {i : Instr}
    (hi : i ∈ (f.looped ws next).instrsOf b) (hgiven : f.next.instr ≤ i.id.index)
    {left right : ValueId} (hop : i.op = .binary .add left right) :
    b = w.code.tail ∧ left = w.code.induction ∧ right = vs.one := by
  simp only [List.mem_cons, List.not_mem_nil, or_false] at hb
  rcases hb with rfl | rfl | rfl
  · obtain ⟨blk, x, hblk, hx, hinstrs⟩ := h.exists_block?_pred hw
    rw [instrsOf_of_block? hx, hinstrs] at hi
    rcases List.mem_append.1 hi with hi | hi
    · have hlt := h.bounded.instrs_lt i (List.mem_flatMap.2 ⟨blk, (block?_mem hblk).1, hi⟩)
      exact absurd hgiven (Nat.not_le.2 hlt)
    · exact absurd hop (hcode.plain i (List.mem_append_left _ hi) left right)
  · rw [instrsOf_of_block? (h.block?_header hw)] at hi
    exact absurd hop (hcode.plain i (List.mem_append_right _ hi) left right)
  · rw [instrsOf_of_block? (h.block?_tail hw)] at hi
    exact ⟨rfl, hcode.sums i hi left right hop⟩

/-- The loops of a function with loops count. -/
theorem counts (h : f.Loopable guard plan ws next) (hw : w ∈ ws)
    (hshaped : (f.looped ws next).Shaped) (hwidth : plan.sizeTy.width? = some width)
    (hrank : plan.rank.index < f.next.value) (hsize : plan.size.index < f.next.value)
    (n r : BitVec width) (convert : Datum width δ → Datum width δ) :
    ∃ vs, (⟨w.loop, plan, f.next.instr, n, r, convert⟩ : Tour width δ).Counts (f.looped ws next)
      guard vs w.code.turn w.code.done := by
  let t : Tour width δ := ⟨w.loop, plan, f.next.instr, n, r, convert⟩
  have hpred_mem := h.pred_mem hw
  have hpred_ne_header : w.region.pred ≠ w.code.header := fun heq =>
    h.header_not_mem hw (heq ▸ hpred_mem)
  have hpred_ne_tail : w.region.pred ≠ w.code.tail := fun heq => h.tail_not_mem hw (heq ▸ hpred_mem)
  have hheader_ne_body : w.code.header ≠ w.region.start := fun heq =>
    h.header_not_mem hw (heq ▸ h.start_mem hw)
  have hheader_ne_succ : w.code.header ≠ w.region.succ := fun heq =>
    h.header_not_mem hw (heq ▸ h.succ_mem hw)
  have htail_ne_body : w.code.tail ≠ w.region.start := fun heq =>
    h.tail_not_mem hw (heq ▸ h.start_mem hw)
  obtain ⟨vs, hcode⟩ : ∃ vs, t.CodeCounts guard w.code w.region.pred vs := by
    obtain ⟨c, hc, hvalue, -⟩ := h.exists_code hw
    have htail : w.code.tail = ⟨c.block + 1⟩ := by
      rw [hc]
      rfl
    rw [hc]
    exact t.codeCounts w.region guard hwidth (hrank.trans_le hvalue) (hsize.trans_le hvalue)
      (htail ▸ hpred_ne_tail)
  obtain ⟨blk, x, -, hpred, hinstrs⟩ := h.exists_block?_pred hw
  have hheader := h.block?_header hw
  have htail := h.block?_tail hw
  obtain ⟨hopening, hhead, hback⟩ := w.code.mem_instrs
  -- zero is defined in front of the loop only, and the counter in the header only
  obtain ⟨i, hi, hzero⟩ := hcode.zero_mem
  obtain ⟨phi, hphi, hind⟩ := h.exists_phi hw
  have hzero_ne : ∀ {b y}, (f.looped ws next).block? b = some y → b ≠ w.region.pred →
      ∀ i ∈ y.instrs, i.result ≠ some vs.zero := fun hy hne =>
    result_ne_of_mem hshaped.results_nodup hpred (hinstrs ▸ List.mem_append_right _ hi) hzero hy hne
  refine ⟨vs, width_pos_of_width? hwidth, hpred_ne_tail, h.header_ne_tail hw hw, hheader_ne_body,
    hheader_ne_succ, htail_ne_body, ?_, ?_, ?_, ?_, ?_, ?_, ?_,
    fun hgoes => (h.edge_into_header hw).1 hgoes.edge,
    fun hgoes => (h.edge_into_start hw).1 hgoes.edge,
    fun hgoes => (h.edge_into_succ hw).1 hgoes.edge,
    fun b hb i hi hgiven left right hop => h.sums hw hcode hb hi hgiven hop⟩
  · rintro source entry s ⟨y, hy, hpasses⟩ hs
    rw [hs] at hy hpasses
    obtain rfl := Option.some.inj (hpred.symm.trans hy)
    rw [hinstrs] at hpasses
    obtain ⟨mid, -, hlast⟩ := passes_append.1 hpasses
    exact hcode.opening (Tour.passes_computes List.mem_cons_self
      (fun i hi => h.instr_ge hw (hopening i hi)) hlast)
  · rintro source entry s k ⟨y, hy, hpasses⟩ hs hholds hsource
    rw [hs] at hy hpasses
    obtain rfl := Option.some.inj (hheader.symm.trans hy)
    obtain ⟨hcount, hturn⟩ := hcode.head (Tour.passes_computes
      (List.mem_cons_of_mem _ List.mem_cons_self) (fun i hi => h.instr_ge hw (hhead i hi)) hpasses)
      hholds.toKnows hholds.zero hsource
    exact ⟨hholds.of_passes hpasses (fun i hi => h.result_ne_of_lt hw hrank (hhead i hi))
      (fun i hi => h.result_ne_of_lt hw hsize (hhead i hi))
      (hzero_ne hy hpred_ne_header.symm), hcount, hturn⟩
  · rintro source entry s k ⟨y, hy, hpasses⟩ hs hholds hcount
    rw [hs] at hy hpasses
    obtain rfl := Option.some.inj (htail.symm.trans hy)
    refine ⟨hholds.of_passes hpasses (fun i hi => h.result_ne_of_lt hw hrank (hback i hi))
      (fun i hi => h.result_ne_of_lt hw hsize (hback i hi)) (hzero_ne hy hpred_ne_tail.symm), ?_⟩
    exact hcode.back (Tour.passes_computes
      (List.mem_cons_of_mem _ (List.mem_cons_of_mem _ List.mem_cons_self))
      (fun i hi => h.instr_ge hw (hback i hi)) hpasses) hholds.toKnows hcount
  · rintro source entry s ⟨y, hy, hpasses⟩ hs hholds
    have hne_pred : s.block ≠ w.region.pred := fun heq => hs (heq ▸ List.mem_cons_self)
    have hne_header : s.block ≠ w.code.header := fun heq =>
      hs (heq ▸ List.mem_cons_of_mem _ List.mem_cons_self)
    exact ⟨hholds.of_yields hs hpasses (hzero_ne hy hne_pred),
      hpasses.env_eq (result_ne_of_mem hshaped.results_nodup hheader hphi hind hy hne_header)⟩
  · intro s b hgoes (hs : s.block = w.region.pred)
    exact (h.edge_pred hw).1 (hs ▸ hgoes.edge)
  · intro s b value hgoes (hs : s.block = w.code.header) hvalue
    rw [← hs] at hheader
    exact hgoes.eq_of_condBranch (hs ▸ List.mem_cons_self) hheader rfl hvalue
  · intro s b value hgoes (hs : s.block = w.code.tail) hvalue
    rw [← hs] at htail
    exact hgoes.eq_of_condBranch (hs ▸ List.mem_cons_of_mem _ List.mem_cons_self) htail rfl hvalue

end Loopable

end Func

/-! ### The turns -/

namespace Tour

variable (t : Tour width δ)

theorem rest_zero : t.rest 0 = List.range t.rounds := by
  rw [rest, Nat.sub_zero, List.range_eq_range']

/-- With a test that does not look at the iteration, all iterations are turns, or none is. -/
theorem filter_rankAndSize : (t.rest 0).filter (t.isTurn .rankAndSize) =
    if t.rank &&& t.size = 0 then t.rest 0 else [] := by
  by_cases h : t.rank &&& t.size = 0
  · rw [if_pos h, List.filter_eq_self]
    exact fun k _ => decide_eq_true h
  · rw [if_neg h, List.filter_eq_nil_iff]
    exact fun k _ hturn => h (of_decide_eq_true hturn)

/-- With a test for the iteration, the rank of the thread is its turn, if the loop comes so far. -/
theorem filter_rankEqualsIteration (hwidth : 0 < width) :
    (t.rest 0).filter (t.isTurn .rankEqualsIteration) =
      if t.rank.toNat < t.rounds then [t.rank.toNat] else [] := by
  have hsame : ∀ k ∈ t.rest 0, t.isTurn .rankEqualsIteration k = decide (k = t.rank.toNat) := by
    intro k hk
    rw [rest_zero, List.mem_range] at hk
    refine decide_eq_decide.2 ⟨fun heq => ?_, fun heq => ?_⟩
    · rw [heq, toNat_number hwidth hk.le]
    · rw [heq, BitVec.ofNat_toNat, BitVec.setWidth_eq]
  rw [List.filter_congr hsame, List.filter_eq, rest_zero, List.nodup_range.count]
  simp only [List.mem_range]
  split <;> rfl

/-- What the loop counts on a tour, and in which iterations the thread enters the region. -/
theorem Counts.segment {t : Tour width δ} {f : Func} {guard : TurnGuard} {vs : Values}
    {turn done : ValueId} {ss : List (Stay width δ)} (h : t.Counts f guard vs turn done)
    (hne : t.loop.pred ≠ t.loop.header) (hne' : t.loop.pred ≠ t.loop.body)
    (hss : t.Segment f ss) :
    t.counter t.loop.header ss = numbers width δ (t.rest 0) ∧
      t.counter t.loop.body ss = numbers width δ ((t.rest 0).filter (t.isTurn guard)) ∧
      ∀ s ∈ ss, t.SumsFit f s := by
  obtain ⟨source, entry, s, rest, rfl, hs, hexec, hknows, honward⟩ := hss
  have hphase : t.Phase guard vs turn done s 0 0 := .opened hs ⟨hknows, h.opens hexec hs⟩
  obtain ⟨hheaders, hbodies, hfit⟩ := h.onward honward hphase
  refine ⟨?_, ?_, hfit⟩
  · rw [counter_cons, counter_singleton, if_neg (hs ▸ hne), hheaders]
    rfl
  · rw [counter_cons, counter_singleton, if_neg (hs ▸ hne'), hbodies]
    rfl

end Tour

/-- **How often a generated loop goes round.**  Divide a well-formed kernel with a plan into
regions, and build loops around some of them, in any order, which count in an integer type. Take
any tour of a thread through one of the loops: it begins in front of the loop, does not come there
again, and ends when control first comes to the barrier. Then the header counts up from zero, as
often as the size of the group says, and once if the size is zero; no sum is too great for its
type. If the guard compares the rank with the iteration, the thread enters the region once, in the
iteration of its rank, if the loop comes so far, and else never. With the other guard it enters
the region in each iteration if its rank and the size have no bit in common, and else never. -/
theorem Plan.wraps_count (f : Func) (config : Config) (plan : Plan) (hf : f.defects = [])
    (hn : f.Numbered) (hplan : f.plan config = .ok plan) (g : Func) (regions : List Region)
    (hregions : plan.buildRegions.apply f = (.ok regions, g)) (rs : List Region) (hnd : rs.Nodup)
    (hrs : rs ⊆ regions) (guard : TurnGuard) (loops : List TurnLoop) (h : Func)
    (hwraps : (rs.mapM fun r : Region => r.wrap guard plan).apply g = (.ok loops, h))
    (t : Tour width δ) (hloop : t.loop ∈ loops) (htour : t.plan = plan)
    (hgiven : t.given = g.next.instr) (hwidth : plan.sizeTy.width? = some width)
    (ss : List (Stay width δ)) (hss : t.Segment h ss) :
    t.counter t.loop.header ss =
        (List.range (max 1 t.size.toNat)).map (fun k => .int (BitVec.ofNat width k)) ∧
      (∀ s ∈ ss, t.SumsFit h s) ∧
      (guard = .rankEqualsIteration → t.counter t.loop.body ss =
        if t.rank.toNat < max 1 t.size.toNat then [.int t.rank] else []) ∧
      (guard = .rankAndSize → t.counter t.loop.body ss =
        if t.rank &&& t.size = 0 then t.counter t.loop.header ss else []) := by
  have hs := (Func.defects_eq_nil_iff_shaped.1 hf).1
  obtain ⟨g', front, first, ws', next', hlowered, hregions', -⟩ :=
    Plan.exists_lowered hs hn (Func.plan_eq_ok_iff.1 hplan).1
  rw [hregions] at hregions'
  cases hregions'
  -- the loops around the chosen regions
  have hnil : g.Loopable guard plan [] g.next :=
    .nil (hlowered.cuts.shaped hs) hlowered.numbered.bounded
  have hspaced : g.Spaced (List.map Wrap.region [] ++ rs) :=
    hlowered.loopable.spaced.of_subset hrs hnd
  obtain ⟨ws, next, hwraps', hloopable, -⟩ := hnil.apply_wraps hspaced
  rw [Func.looped_nil, hwraps] at hwraps'
  cases hwraps'
  obtain ⟨w, hw, hloop⟩ := List.mem_map.1 hloop
  obtain ⟨l, plan', given, n, r, convert⟩ := t
  dsimp only at hloop htour hgiven
  subst hloop htour hgiven
  have hbounded := hlowered.numbered.bounded
  obtain ⟨hrank, hsize⟩ := hlowered.query_mem
  have hshaped := hloopable.shaped_looped (List.mem_append_right _ hrank)
    (List.mem_append_right _ hsize)
  obtain ⟨vs, hcounts⟩ := hloopable.counts hw hshaped hwidth (hbounded.results_lt _ hrank)
    (hbounded.results_lt _ hsize) n r convert
  have hne : w.region.pred ≠ w.code.header := fun heq =>
    hloopable.header_not_mem hw (heq ▸ hloopable.pred_mem hw)
  obtain ⟨hheaders, hbodies, hfit⟩ := hcounts.segment hne
    (hloopable.spaced.pred_ne_start _ (List.mem_map_of_mem hw)) hss
  refine ⟨?_, hfit, ?_, ?_⟩
  · rw [hheaders, Tour.rest_zero]
    rfl
  · rintro rfl
    rw [hbodies, Tour.filter_rankEqualsIteration _ hcounts.width_pos]
    show Tour.numbers width δ (if r.toNat < max 1 n.toNat then [r.toNat] else []) = _
    split
    · rw [Tour.numbers, List.map_singleton, BitVec.ofNat_toNat, BitVec.setWidth_eq]
    · rfl
  · rintro rfl
    rw [hbodies, hheaders, Tour.filter_rankAndSize]
    split <;> rfl

namespace Func

/-- The second of two threads, in front of the first of two loops. -/
def secondOfTwo : Tour 32 Unit where
  loop := ⟨⟨2⟩, ⟨2⟩, ⟨7⟩, ⟨3⟩, ⟨8⟩, ⟨4⟩, ⟨4⟩, ⟨3⟩⟩
  plan := ⟨⟨⟨0⟩, ⟨1⟩, ⟨0⟩, ⟨1⟩, .i32, .i32⟩, [⟨2⟩, ⟨3⟩],
    [⟨⟨2⟩, ⟨0⟩, .simple⟩, ⟨⟨3⟩, ⟨0⟩, .simple⟩], 1⟩
  given := 4
  size := 2
  rank := 1
  convert := id

/-- What it knows when it leaves the block in front of the loop. -/
def secondOfTwo.opened : ValueId → Datum 32 Unit :=
  assign (assign (assign (assign (fun _ => .other ()) (some ⟨0⟩) (.int 1)) (some ⟨1⟩) (.int 2))
    (some ⟨2⟩) (.int 0)) (some ⟨3⟩) (.other ())

/-- What it knows when it leaves the header in iteration `k`. -/
def secondOfTwo.head (env : ValueId → Datum 32 Unit) (k : BitVec 32) : ValueId → Datum 32 Unit :=
  assign (assign env (some ⟨4⟩) (.int k)) (some ⟨5⟩) (.bool (k = 1))

/-- What it knows when it leaves the tail in iteration `k`. -/
def secondOfTwo.back (env : ValueId → Datum 32 Unit) (k : BitVec 32) : ValueId → Datum 32 Unit :=
  assign (assign (assign env (some ⟨6⟩) (.int 1)) (some ⟨7⟩) (.int (k + 1))) (some ⟨8⟩)
    (.bool (2 ≤ k + 1))

/-- The second of two threads goes round the first loop twice, and enters the region the second
time. -/
theorem wraps_count_waitingTwice : waitingTwice.defects = [] ∧ waitingTwice.Numbered ∧
    waitingTwice.plan .standard = .ok secondOfTwo.plan ∧ ∃ r regions g loops h ss,
      secondOfTwo.plan.buildRegions.apply waitingTwice = (.ok (r :: regions), g) ∧
      ([r].mapM fun r : Region => r.wrap .rankEqualsIteration secondOfTwo.plan).apply g =
        (.ok loops, h) ∧
      secondOfTwo.loop ∈ loops ∧ g.next.instr = 4 ∧ secondOfTwo.Segment h ss ∧
        secondOfTwo.counter ⟨7⟩ ss = [.int 0, .int 1] ∧
        secondOfTwo.counter ⟨3⟩ ss = [.int 1] := by
  let g := (secondOfTwo.plan.buildRegions.apply waitingTwice).2
  let r : Region := ⟨⟨2⟩, ⟨2⟩, ⟨3⟩, ⟨3⟩, ⟨4⟩⟩
  let h := (([r].mapM fun r : Region => r.wrap .rankEqualsIteration secondOfTwo.plan).apply g).2
  have hregions : secondOfTwo.plan.buildRegions.apply waitingTwice =
      (.ok [r, ⟨⟨3⟩, ⟨4⟩, ⟨5⟩, ⟨5⟩, ⟨6⟩⟩], g) := by
    unfold r g
    cbv
  have hwraps : ([r].mapM fun r : Region =>
      r.wrap .rankEqualsIteration secondOfTwo.plan).apply g = (.ok [secondOfTwo.loop], h) := by
    unfold h r g
    cbv
  have hgiven : g.next.instr = 4 := by
    unfold g
    cbv
  have hblocks : [⟨2⟩, ⟨7⟩, ⟨3⟩, ⟨8⟩].map h.block? =
      [some ⟨⟨2⟩, "cg.init",
        [⟨⟨0⟩, some ⟨0⟩, .call "__hip_cg_thread_rank" [], .i32⟩,
          ⟨⟨1⟩, some ⟨1⟩, .call "__hip_cg_group_size" [], .i32⟩,
          ⟨⟨4⟩, some ⟨2⟩, .const (.int 0 .i32), .i32⟩, ⟨⟨5⟩, some ⟨3⟩, .alloca .i32, .ptr .i32⟩,
          ⟨⟨6⟩, none, .store ⟨3⟩ ⟨2⟩, .void⟩], .branch ⟨7⟩⟩,
      some ⟨⟨7⟩, "cg.header",
        [⟨⟨7⟩, some ⟨4⟩, .phi [(⟨2⟩, ⟨2⟩), (⟨8⟩, ⟨7⟩)], .i32⟩,
          ⟨⟨8⟩, some ⟨5⟩, .binary .eq ⟨0⟩ ⟨4⟩, .bool⟩], .condBranch ⟨5⟩ ⟨3⟩ ⟨8⟩⟩,
      some ⟨⟨3⟩, "entry.split", [], .branch ⟨8⟩⟩,
      some ⟨⟨8⟩, "cg.tail",
        [⟨⟨9⟩, some ⟨6⟩, .const (.int 1 .i32), .i32⟩, ⟨⟨10⟩, some ⟨7⟩, .binary .add ⟨4⟩ ⟨6⟩, .i32⟩,
          ⟨⟨11⟩, some ⟨8⟩, .binary .uge ⟨7⟩ ⟨1⟩, .bool⟩], .condBranch ⟨8⟩ ⟨4⟩ ⟨7⟩⟩] := by
    unfold h g r
    cbv
  simp only [List.map_cons, List.map_nil, List.cons.injEq, and_true] at hblocks
  obtain ⟨hpred, hheader, hbody, htail⟩ := hblocks
  -- in front of the loop, twice round it, the second time through the region
  obtain ⟨ss, hss⟩ : ∃ ss, secondOfTwo.Segment h ss := by
    let first := secondOfTwo.head secondOfTwo.opened 0
    let second := secondOfTwo.head (secondOfTwo.back first 0) 1
    refine ⟨_, ⟨1⟩, fun _ => .other (), ⟨⟨2⟩, secondOfTwo.opened⟩, _, rfl, rfl,
      ⟨_, hpred, .cons (d := .int 1) ?_ (.cons (d := .int 2) ?_ (.cons (d := .int 0) ?_
        (.cons (d := .other ()) ?_ (.cons (d := .other ()) ?_ .nil))))⟩, ⟨?_, ?_⟩,
      .stay (u := ⟨⟨7⟩, first⟩) (Tour.goes_of_branch hpred rfl)
        ⟨_, hheader, .cons ?_ (.cons ?_ .nil)⟩ ?_ ?_ <|
      .stay (u := ⟨⟨8⟩, secondOfTwo.back first 0⟩) (Tour.goes_of_condBranch hheader rfl rfl rfl)
        ⟨_, htail, .cons ?_ (.cons ?_ (.cons ?_ .nil))⟩ ?_ ?_ <|
      .stay (u := ⟨⟨7⟩, second⟩) (Tour.goes_of_condBranch htail rfl rfl rfl)
        ⟨_, hheader, .cons ?_ (.cons ?_ .nil)⟩ ?_ ?_ <|
      .stay (u := ⟨⟨3⟩, second⟩) (Tour.goes_of_condBranch hheader rfl rfl rfl)
        ⟨_, hbody, .nil⟩ ?_ ?_ <|
      .stay (u := ⟨⟨8⟩, secondOfTwo.back second 1⟩) (Tour.goes_of_branch hbody rfl)
        ⟨_, htail, .cons ?_ (.cons ?_ (.cons ?_ .nil))⟩ ?_ ?_ <|
      .arrive (Tour.goes_of_condBranch htail rfl rfl rfl)⟩
    all_goals simp [Tour.Yields, Tour.Computes, Tour.IsRank, secondOfTwo, assign,
      Function.update_apply, first, second, secondOfTwo.opened, secondOfTwo.head, secondOfTwo.back]
  have hloop : secondOfTwo.loop ∈ [secondOfTwo.loop] := List.mem_singleton.2 rfl
  obtain ⟨hheaders, -, hbodies, -⟩ := Plan.wraps_count waitingTwice .standard secondOfTwo.plan
    defects_waitingTwice numbered_waitingTwice (plan_waitingTwice false) g _ hregions [r]
    (List.nodup_singleton r) (by simp) .rankEqualsIteration _ h hwraps secondOfTwo hloop rfl
    hgiven.symm rfl ss hss
  exact ⟨defects_waitingTwice, numbered_waitingTwice, plan_waitingTwice false, r, _, g, _, h, ss,
    hregions, hwraps, hloop, hgiven, hss, hheaders, hbodies rfl⟩

end Func

end BarrierLowering
