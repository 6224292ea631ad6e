import BarrierLowering.CallKind
import BarrierLowering.Proofs.Split
import Mathlib.Logic.Function.Basic

/-!
# Running a function

A thread runs a function block by block. Given instructions, those of the function before it was
changed, are taken as they come: each reads its operands and leaves a record, and what it computes
may be anything that depends on the records so far. Choices decide where given blocks go.
Generated instructions and terminators are interpreted, on integers of a fixed width.

## Main definitions

* `Datum`, `Machine`, `Thread` — the data, what is fixed on a run, and the state of a thread.
* `Machine.exec`, `Machine.follow` — one instruction, and the way out of a block.
* `Func.Ends`, `Func.Runs` — a run that comes to a block without successors.

## Main results

* `Func.Ends.unique` — the choices decide the run.
* `Func.Cuts.runs` — splits do not change what a thread does.
-/

namespace BarrierLowering

/-- The number of bits of an integer type. -/
def Ty.width? : Ty → Option Nat
  | .i8 => some 8
  | .i16 => some 16
  | .i32 => some 32
  | .i64 => some 64
  | _ => none

/-- What a value stands for: an integer, a truth value, or something else. -/
inductive Datum (width : Nat) (δ : Type)
  | int (value : BitVec width)
  | bool (value : Bool)
  | other (value : δ)

/-- What is fixed on a run. -/
structure Machine (width : Nat) (δ : Type) where
  /-- Identifiers below these are given, the others are generated. -/
  given : Counters
  /-- How queries are recognised. -/
  rule : NameRule
  /-- The rank of the thread in its group. -/
  rank : BitVec width
  /-- The size of the group. -/
  size : BitVec width
  /-- What a given instruction computes from the data it reads, after what has been done. -/
  answer : List (Instr × List (Datum width δ)) → Instr → List (Datum width δ) → Datum width δ
  /-- What is not modelled. -/
  junk : Datum width δ

/-- What a thread knows, and a record of the given instructions that it ran, each with the data
that it read. -/
structure Thread (width : Nat) (δ : Type) where
  env : ValueId → Datum width δ
  trace : List (Instr × List (Datum width δ))

variable {width : Nat} {δ : Type}

/-- Bind the result of an instruction, if it has one. -/
def assign (env : ValueId → Datum width δ) (result : Option ValueId) (d : Datum width δ) :
    ValueId → Datum width δ :=
  match result with
  | some v => Function.update env v d
  | none => env

namespace Machine

variable (m : Machine width δ)

/-- What a phi node selects when control comes from `source`. -/
def select (entry : ValueId → Datum width δ) (source : Option BlockId)
    (incoming : List (BlockId × ValueId)) : Datum width δ :=
  match incoming.find? fun e => some e.1 = source with
  | some e => entry e.2
  | none => m.junk

/-- What an instruction reads. Phi nodes select from what was known at the entry of the block. -/
def reads (source : Option BlockId) (entry env : ValueId → Datum width δ) (i : Instr) :
    List (Datum width δ) :=
  if i.isPhi then [m.select entry source i.incoming] else i.op.operands.map env

/-- What a given instruction computes. -/
def result (trace : List (Instr × List (Datum width δ))) (i : Instr)
    (data : List (Datum width δ)) : Datum width δ :=
  match i.kind m.rule with
  | .threadRank => .int m.rank
  | .groupSize => .int m.size
  | _ => if i.isPhi then data.headD m.junk else m.answer trace i data

/-- What a generated operator computes. -/
def operate (op : BinOp) (left right : Datum width δ) : Datum width δ :=
  match op, left, right with
  | .add, .int x, .int y => .int (x + y)
  | .eq, .int x, .int y => .bool (x = y)
  | .uge, .int x, .int y => .bool (y ≤ x)
  | _, _, _ => m.junk

/-- What a generated instruction computes. Converting an integer preserves it. -/
def compute (source : Option BlockId) (entry env : ValueId → Datum width δ) (i : Instr) :
    Datum width δ :=
  match i.op with
  | .const (.bool value) => .bool value
  | .const (.int value ty) => if ty.width? = some width then .int (.ofInt width value) else m.junk
  | .cast value _ => env value
  | .binary op left right => m.operate op (env left) (env right)
  | .phi incoming => m.select entry source incoming
  | _ => m.junk

/-- Run an instruction of a block that was entered from `source`. -/
def exec (source : Option BlockId) (entry : ValueId → Datum width δ) (t : Thread width δ)
    (i : Instr) : Thread width δ :=
  if i.id.index < m.given.instr then
    let data := m.reads source entry t.env i
    ⟨assign t.env i.result (m.result t.trace i data), t.trace ++ [(i, data)]⟩
  else ⟨assign t.env i.result (m.compute source entry t.env i), t.trace⟩

/-- Run the instructions of a block that was entered from `source`. -/
def run (source : Option BlockId) (t : Thread width δ) (is : List Instr) : Thread width δ :=
  is.foldl (m.exec source t.env) t

/-- Where control goes from a block, and the choices that are left. -/
def follow (blk : Block) (env : ValueId → Datum width δ) (choices : List Nat) :
    Option (BlockId × List Nat) :=
  if blk.id.index < m.given.block then
    match choices with
    | [] => none
    | choice :: rest => (blk.term.targets[choice]?).map (·, rest)
  else
    match blk.term with
    | .branch target => some (target, choices)
    | .condBranch condition onTrue onFalse =>
      match env condition with
      | .bool value => some (if value then onTrue else onFalse, choices)
      | _ => none
    | _ => none

end Machine

/-- A thread in front of a block, which it enters from `source`, and the choices to come. -/
structure Point (width : Nat) (δ : Type) where
  block : BlockId
  source : Option BlockId
  thread : Thread width δ
  choices : List Nat

/-- How a run ends: the last block, its terminator and what that reads, the record of the run, and
the choices that are left. -/
structure Ending (width : Nat) (δ : Type) where
  block : BlockId
  term : Terminator
  data : List (Datum width δ)
  trace : List (Instr × List (Datum width δ))
  choices : List Nat

namespace Func

/-- A run that comes to a block without successors. -/
inductive Ends (f : Func) (m : Machine width δ) : Point width δ → Ending width δ → Prop
  | stop {p : Point width δ} {blk : Block} {t : Thread width δ} :
      f.block? p.block = some blk → m.run p.source p.thread blk.instrs = t →
      blk.term.targets = [] →
      Ends f m p ⟨p.block, blk.term, blk.term.operands.map t.env, t.trace, p.choices⟩
  | go {p : Point width δ} {blk : Block} {t : Thread width δ} {b : BlockId} {choices : List Nat}
      {e : Ending width δ} :
      f.block? p.block = some blk → m.run p.source p.thread blk.instrs = t →
      m.follow blk t.env p.choices = some (b, choices) →
      Ends f m ⟨b, some p.block, t, choices⟩ e → Ends f m p e

/-- A run from the entry that comes to a block without successors. -/
def Runs (f : Func) (m : Machine width δ) (env : ValueId → Datum width δ) (choices : List Nat)
    (e : Ending width δ) : Prop :=
  ∃ b, f.entryId? = some b ∧ f.Ends m ⟨b, none, ⟨env, []⟩, choices⟩ e

end Func

/-! ### Instructions and terminators -/

/-- The other values stay as they are. -/
theorem assign_of_ne {env : ValueId → Datum width δ} {result : Option ValueId} {d : Datum width δ}
    {v : ValueId} (h : result ≠ some v) : assign env result d v = env v := by
  cases result with
  | none => rfl
  | some u => exact Function.update_of_ne (fun heq => h (congrArg some heq.symm)) _ _

namespace Machine

variable {m : Machine width δ} {i : Instr} {is js : List Instr} {source source' : Option BlockId}
  {entry entry' env : ValueId → Datum width δ} {t : Thread width δ} {blk : Block}
  {choices rest : List Nat} {b : BlockId}

/-- Only phi nodes care where control came from. -/
theorem exec_of_not_phi (h : i.isPhi = false) :
    m.exec source entry t i = m.exec source' entry' t i := by
  have hreads : m.reads source entry t.env i = m.reads source' entry' t.env i := by
    rw [reads, reads, h]
    rfl
  have hcompute : m.compute source entry t.env i = m.compute source' entry' t.env i := by
    unfold Instr.isPhi at h
    unfold compute
    split <;> simp_all
  rw [exec, exec, hreads, hcompute]

/-- Code without phi nodes may be run in a block of its own. -/
theorem run_append (h : ∀ i ∈ js, i.isPhi = false) :
    m.run source t (is ++ js) = m.run source' (m.run source t is) js := by
  unfold run
  rw [List.foldl_append]
  generalize is.foldl (m.exec source t.env) t = t'
  generalize t'.env = entry'
  induction js generalizing t' with
  | nil => rfl
  | cons i js ih =>
    rw [List.foldl_cons, List.foldl_cons, exec_of_not_phi (h i List.mem_cons_self)]
    exact ih (fun j hj => h j (List.mem_cons_of_mem _ hj)) _

/-- Where control goes when targets are renamed. -/
theorem follow_mapTargets {r : BlockId → BlockId} {instrs : List Instr}
    (h : m.follow blk env choices = some (b, rest)) :
    m.follow { blk with instrs, term := blk.term.mapTargets r } env choices = some (r b, rest) := by
  unfold follow at h ⊢
  split at h
  · next hgiven =>
    rw [if_pos hgiven]
    cases choices with
    | nil => cases h
    | cons choice choices =>
      obtain ⟨target, htarget, heq⟩ := Option.map_eq_some_iff.1 h
      obtain ⟨rfl, rfl⟩ := Prod.mk.inj heq
      dsimp only
      rw [Terminator.targets_mapTargets, List.getElem?_map, htarget]
      rfl
  · next hgiven =>
    rw [if_neg hgiven]
    split at h
    · next hterm =>
      obtain ⟨rfl, rfl⟩ := Prod.mk.inj (Option.some.inj h)
      rw [hterm]
      rfl
    · next hterm =>
      rw [hterm]
      split at h
      · next value henv =>
        obtain ⟨rfl, rfl⟩ := Prod.mk.inj (Option.some.inj h)
        simp only [Terminator.mapTargets, henv, apply_ite r]
      · cases h
    · cases h

/-- A generated branch is interpreted. -/
theorem follow_condBranch {condition : ValueId} {onTrue onFalse : BlockId} {value : Bool}
    (hgiven : m.given.block ≤ blk.id.index)
    (hterm : blk.term = .condBranch condition onTrue onFalse)
    (henv : env condition = .bool value) :
    m.follow blk env choices = some (if value then onTrue else onFalse, choices) := by
  unfold follow
  rw [if_neg (Nat.not_lt.2 hgiven), hterm]
  dsimp only
  rw [henv]

/-- Control goes to a target of the block. -/
theorem mem_targets_of_follow (h : m.follow blk env choices = some (b, rest)) :
    b ∈ blk.term.targets := by
  unfold follow at h
  split at h
  · cases choices with
    | nil => cases h
    | cons choice choices =>
      obtain ⟨target, htarget, heq⟩ := Option.map_eq_some_iff.1 h
      obtain ⟨rfl, rfl⟩ := Prod.mk.inj heq
      exact List.mem_of_getElem? htarget
  · split at h
    · next hterm =>
      obtain ⟨rfl, rfl⟩ := Prod.mk.inj (Option.some.inj h)
      rw [hterm]
      exact List.mem_cons_self
    · next hterm =>
      rw [hterm]
      split at h
      · next value henv =>
        obtain ⟨rfl, rfl⟩ := Prod.mk.inj (Option.some.inj h)
        cases value <;> simp [Terminator.targets]
      · cases h
    · cases h

end Machine

/-- A terminator without targets has none to rename. -/
theorem Terminator.mapTargets_eq_self {t : Terminator} {r : BlockId → BlockId}
    (h : t.targets = []) : t.mapTargets r = t := by
  cases t <;> simp_all [targets, mapTargets]

namespace Func

variable {f g : Func} {m : Machine width δ} {p : Point width δ} {e e' : Ending width δ}
  {env : ValueId → Datum width δ} {choices : List Nat} {b : BlockId} {index : Nat} {blk : Block}

/-- The choices decide how a run ends. -/
theorem Ends.unique (h : f.Ends m p e) (h' : f.Ends m p e') : e = e' := by
  induction h with
  | @stop p blk t hblk hrun hstop =>
    cases h' with
    | stop hblk' hrun' _ =>
      obtain rfl := Option.some.inj (hblk.symm.trans hblk')
      rw [hrun] at hrun'
      rw [hrun']
    | go hblk' _ hfollow _ =>
      obtain rfl := Option.some.inj (hblk.symm.trans hblk')
      have hmem := Machine.mem_targets_of_follow hfollow
      rw [hstop] at hmem
      cases hmem
  | @go p blk t b choices e hblk hrun hfollow _ ih =>
    cases h' with
    | stop hblk' _ hstop =>
      obtain rfl := Option.some.inj (hblk.symm.trans hblk')
      have hmem := Machine.mem_targets_of_follow hfollow
      rw [hstop] at hmem
      cases hmem
    | go hblk' hrun' hfollow' hrest =>
      obtain rfl := Option.some.inj (hblk.symm.trans hblk')
      obtain rfl := hrun.symm.trans hrun'
      obtain ⟨rfl, rfl⟩ := Prod.mk.inj (Option.some.inj (hfollow.symm.trans hfollow'))
      exact ih hrest

theorem Runs.unique (h : f.Runs m env choices e) (h' : f.Runs m env choices e') : e = e' := by
  obtain ⟨b, hb, hends⟩ := h
  obtain ⟨b', hb', hends'⟩ := h'
  obtain rfl := Option.some.inj (hb.symm.trans hb')
  exact hends.unique hends'

/-! ### Splits -/

/-- A thread in front of a block that was split is in front of the new block. -/
theorem Cuttable.ends (h : f.Cuttable b index blk) (label : String)
    (hgiven : m.given.block ≤ f.next.block) (hends : f.Ends m p e) :
    (f.cut b index label).Ends m
      { p with block := if p.block = b then f.fresh else p.block } e := by
  have hfollow : ∀ env choices, m.follow ⟨f.fresh, label, blk.instrs.take index, .branch b⟩ env
      choices = some (b, choices) := fun env choices => if_neg (Nat.not_lt.2 hgiven)
  -- the two parts of the block together do what it did before
  have hparts : ∀ source (t : Thread width δ), m.run (some f.fresh)
      (m.run source t (blk.instrs.take index)) (blk.instrs.drop index) =
        m.run source t blk.instrs := by
    intro source t
    rw [← Machine.run_append fun i hi => h.not_phi hi, List.take_append_drop]
  induction hends with
  | @stop p xblk t hblk hrun hstop =>
    have hterm : xblk.term.retarget b f.fresh = xblk.term := Terminator.mapTargets_eq_self hstop
    by_cases hx : p.block = b
    · rw [if_pos hx]
      obtain rfl := Option.some.inj (hblk.symm.trans (hx ▸ h.block))
      refine .go h.block?_fresh rfl (hfollow _ _) ?_
      have hlast := Ends.stop (f := f.cut b index label) (m := m)
        (p := ⟨b, some f.fresh, _, p.choices⟩) h.block?_self
        ((hparts _ _).trans hrun) (by rw [hterm]; exact hstop)
      rw [hterm] at hlast
      rw [hx]
      exact hlast
    · rw [if_neg hx]
      have hlast := Ends.stop (f := f.cut b index label) (m := m) (p := p)
        (h.block?_of_ne hx hblk) hrun (by rw [hterm]; exact hstop)
      rw [hterm] at hlast
      exact hlast
  | @go p xblk t c choices e hblk hrun hgo _ ih =>
    by_cases hx : p.block = b
    · rw [if_pos hx]
      obtain rfl := Option.some.inj (hblk.symm.trans (hx ▸ h.block))
      rw [hx] at ih
      exact .go h.block?_fresh rfl (hfollow _ _) (.go h.block?_self ((hparts _ _).trans hrun)
        (Machine.follow_mapTargets hgo) ih)
    · rw [if_neg hx]
      exact .go (h.block?_of_ne hx hblk) hrun (Machine.follow_mapTargets hgo) ih

/-- Splits do not change what a thread does. -/
theorem Cuts.runs (h : f.Cuts g) (hgiven : m.given.block ≤ f.next.block)
    (hruns : f.Runs m env choices e) : g.Runs m env choices e := by
  induction h with
  | refl => exact hruns
  | @step g b index blk label hcuts hcut ih =>
    obtain ⟨first, hfirst, hends⟩ := ih
    refine ⟨_, ?_, hcut.ends label (hgiven.trans hcuts.blockIds_subset.2) hends⟩
    rw [hcut.entryId?_eq, hfirst]
    rfl

end Func

end BarrierLowering
