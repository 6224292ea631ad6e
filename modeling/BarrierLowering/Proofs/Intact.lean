import BarrierLowering.Proofs.Fresh

/-!
# Failed edits leave no trace

An edit that fails half way leaves its first half behind. The edits that the interface offers look
up what they need before they mint a number or change a block, so that nothing is left behind when
one of them fails. This holds of every function, also of one in which numbers repeat or in which
the counters are behind the numbers in use.

## Main definitions

* `Edit.Reads`, `Edit.Succeeds` — an edit that changes nothing, an edit that cannot fail.
* `Edit.Intact` — an edit that changes nothing if it fails.
* `Operation.IsEdit` — the calls that make one edit.
* `Func.succeeding` — which calls of a row succeed.

## Main results

* `Operation.intact` — every call that makes one edit changes nothing if it fails.
* `Func.perform_succeeding` — of a row of such calls, those that fail may be left out.
* `Func.eq_of_failed` — the same for one call, with the error and the function it leaves.
-/

namespace BarrierLowering

namespace Edit

variable {ε ε' α β : Type} {e : Edit ε α} {k : α → Edit ε β}

/-- An edit that changes nothing. -/
def Reads (e : Edit ε α) : Prop := ∀ f : Func, (e.apply f).2 = f

/-- An edit that cannot fail. -/
def Succeeds (e : Edit ε α) : Prop := ∀ f : Func, ∃ a g, e.apply f = (.ok a, g)

/-- An edit that changes nothing if it fails. -/
def Intact (e : Edit ε α) : Prop :=
  ∀ (f g : Func) (error : ε), e.apply f = (.error error, g) → g = f

/-! ### Edits that read, and edits that cannot fail -/

theorem reads_throw (error : ε) : (throw error : Edit ε α).Reads := fun _ => rfl

theorem reads_require (error : ε) (lookup : Func → Option α) : (require error lookup).Reads := by
  intro f
  rw [apply_require]
  cases lookup f <;> rfl

theorem Reads.intact (he : e.Reads) : e.Intact := by
  intro f g error h
  have hf := he f
  rwa [h] at hf

theorem succeeds_pure (a : α) : (pure a : Edit ε α).Succeeds := fun f => ⟨a, f, rfl⟩

theorem succeeds_modify (change : Func → Func) : (modify change : Edit ε Unit).Succeeds :=
  fun f => ⟨(), change f, rfl⟩

theorem succeeds_modifyGet (change : Func → α × Func) :
    (modifyGet change : Edit ε α).Succeeds := fun f => ⟨(change f).1, (change f).2, rfl⟩

theorem Succeeds.bind (he : e.Succeeds) (hk : ∀ a, (k a).Succeeds) : (e >>= k).Succeeds := by
  intro f
  obtain ⟨a, f', hfirst⟩ := he f
  obtain ⟨b, g, hsecond⟩ := hk a f'
  exact ⟨b, g, by rw [apply_bind_ok hfirst, hsecond]⟩

theorem Succeeds.intact (he : e.Succeeds) : e.Intact := by
  intro f g error h
  obtain ⟨a, g', hok⟩ := he f
  rw [hok] at h
  cases h

/-! ### Edits in a row -/

/-- What comes behind an edit that only reads starts from the same function. -/
theorem Reads.bind (he : e.Reads) (hk : ∀ a, (k a).Intact) : (e >>= k).Intact := by
  intro f g error h
  have hf := he f
  rw [apply_bind] at h
  split at h
  · next a f' hfirst =>
    rw [hfirst] at hf
    exact (hk a f' g error h).trans hf
  · next error' f' hfirst =>
    rw [hfirst] at hf
    cases h
    exact hf

/-- If what comes behind cannot fail, a failure is one of the first edit. -/
theorem Intact.bind (he : e.Intact) (hk : ∀ a, (k a).Succeeds) : (e >>= k).Intact := by
  intro f g error h
  rw [apply_bind] at h
  split at h
  · next a f' hfirst =>
    obtain ⟨b, g', hok⟩ := hk a f'
    rw [hok] at h
    cases h
  · next error' f' hfirst =>
    cases h
    exact he f g error hfirst

theorem Intact.adapt (he : e.Intact) (rename : ε → ε') :
    Edit.Intact (ExceptT.adapt rename e) := by
  intro f g error h
  rw [apply_adapt] at h
  split at h <;> cases h
  next cause hfail => exact he f g cause hfail

theorem Intact.lift {e : Edit EditError α} (he : e.Intact) : (Edit.lift e).Intact := he.adapt _

theorem Intact.discard (he : e.Intact) : Edit.Intact (discard e) := by
  rw [discard_eq_bind]
  exact he.bind fun _ => succeeds_pure ()

/-! ### The edits of the interface -/

theorem intact_splitLabeled (b : BlockId) (index : Nat) (label : String) :
    (splitLabeled b index label).Intact := by
  intro f g error h
  rcases splitLabeled_cases f b index label with ⟨error', hfail⟩ | ⟨blk, -, -, -, hok⟩
  · rw [hfail] at h
    cases h
    rfl
  · rw [hok] at h
    cases h

theorem intact_split (b : BlockId) (index : Nat) : (split b index).Intact :=
  (reads_require _ _).bind fun _ => intact_splitLabeled _ _ _

theorem intact_addIncoming (phi : ValueId) (source : BlockId) (value : ValueId) :
    (addIncoming phi source value).Intact := by
  refine (reads_require _ _).bind fun i => ?_
  cases i.op with
  | phi incoming => exact (succeeds_modify _).intact
  | _ => exact (reads_throw _).intact

theorem intact_remove (i : InstrId) : (remove i).Intact :=
  (reads_require _ _).bind fun _ => (reads_require _ _).bind fun j =>
    ((succeeds_modify _).bind fun _ => succeeds_pure j).intact

theorem succeeds_createBlock (label : String) : (createBlock label : Edit ε BlockId).Succeeds :=
  (succeeds_modifyGet _).bind fun b => (succeeds_modify _).bind fun _ => succeeds_pure b

theorem succeeds_addParam (name : String) (ty : Ty) :
    (addParam name ty : Edit ε ValueId).Succeeds :=
  (succeeds_modifyGet _).bind fun v => (succeeds_modify _).bind fun _ => succeeds_pure v

end Edit

namespace Emit

theorem reads_checkBlock (b : BlockId) : (checkBlock b).Reads := by
  intro f
  by_cases hb : b ∈ f.blockIds
  · rw [apply_checkBlock hb]
  · unfold checkBlock
    rw [Edit.apply_bind, Edit.apply_require, Func.block?_eq_none_iff.2 hb]

theorem intact_push (b : BlockId) (result : Option ValueId) (op : Op) (ty : Ty) :
    (push b result op ty).Intact :=
  (reads_checkBlock b).bind fun _ => ((Edit.succeeds_modifyGet _).bind fun id =>
    (Edit.succeeds_modify _).bind fun _ => Edit.succeeds_pure id).intact

/-- The block is looked up a second time when the number for the result is minted. It is found
again, since no block has changed. -/
theorem intact_value (b : BlockId) (op : Op) (ty : Ty) : (value b op ty).Intact := by
  intro f g error h
  by_cases hb : b ∈ f.blockIds
  · rw [apply_value hb] at h
    cases h
  · rw [value, apply_checkBlock_bind hb] at h
    cases h
    rfl

theorem intact_terminator (b : BlockId) (t : Terminator) : (terminator b t).Intact :=
  (reads_checkBlock b).bind fun _ => (Edit.succeeds_modify _).intact

end Emit

/-! ### The calls -/

theorem BuilderCall.intact (b : BlockId) (call : BuilderCall) : (call.edit b).Intact := by
  cases call with
  | callVoid | store => exact (Emit.intact_push _ _ _ _).discard
  | ret | branch | condBranch | switch => exact Emit.intact_terminator _ _
  | _ => exact (Emit.intact_value _ _ _).discard

/-- The calls that make one edit: all but those of the lowering and its parts, which make many. -/
def Operation.IsEdit : Operation → Prop
  | .buildRegions _ | .wrap _ _ _ | .lower _ => False
  | _ => True

/-- Every call that makes one edit changes nothing if it fails. -/
theorem Operation.intact {op : Operation} (hop : op.IsEdit) : op.edit.Intact := by
  cases op with
  | addParam name ty => exact (Edit.succeeds_addParam name ty).intact.discard
  | createBlock label => exact (Edit.succeeds_createBlock label).intact.discard
  | freshBlock | freshValue | freshInstr => exact (Edit.succeeds_modifyGet _).intact.discard
  | build b call => exact (call.intact b).lift
  | split b index => exact (Edit.intact_split b index).lift.discard
  | splitLabeled b index label => exact (Edit.intact_splitLabeled b index label).lift.discard
  | addIncoming phi source value => exact (Edit.intact_addIncoming phi source value).lift
  | remove instr => exact (Edit.intact_remove instr).lift.discard
  | buildRegions | wrap | lower => exact hop.elim

namespace Func

/-- The calls of a row that succeed, when all of them are made one after another. -/
def succeeding (f : Func) : List Operation → List Operation
  | [] => []
  | op :: ops =>
    match op.edit.apply f with
    | (.ok _, g) => op :: g.succeeding ops
    | (.error _, g) => g.succeeding ops

/-- Calls that fail may be left out: the others do the same without them. -/
theorem perform_succeeding (f : Func) {ops : List Operation} (hops : ∀ op ∈ ops, op.IsEdit) :
    f.perform (f.succeeding ops) = f.perform ops := by
  induction ops generalizing f with
  | nil => rfl
  | cons op ops ih =>
    have hrest := fun g : Func => ih g fun op' hop' => hops op' (List.mem_cons_of_mem op hop')
    have hperform : f.perform (op :: ops) = (op.edit.apply f).2.perform ops := rfl
    rw [hperform, succeeding]
    split
    · next a g hok =>
      have hkept : f.perform (op :: g.succeeding ops) =
        (op.edit.apply f).2.perform (g.succeeding ops) := rfl
      rw [hkept, hok, hrest]
    · next error g hfail =>
      obtain rfl := Operation.intact (hops op List.mem_cons_self) f g error hfail
      rw [hfail, hrest]

/-- **Failed edits leave no trace.**  Take any function, also one in which numbers repeat, blocks
are missing, or the counters are behind the numbers in use, and make one call: append any
instruction to any block, close any block, split one, add an incoming edge to a phi node, or
remove an instruction, with any arguments. If the call fails, the function is what it was, its
counters included. -/
theorem eq_of_failed {f g : Func} {op : Operation} {error : LoweringError} (hop : op.IsEdit)
    (h : op.edit.apply f = (.error error, g)) : g = f :=
  Operation.intact hop f g error h

/-- Two blocks have the same number, two instructions have the same number and the same result,
and the counters are behind all of them. -/
def repeating : Func :=
  { emptyKernel "repeating" with
    blocks :=
      [⟨⟨0⟩, "first", [⟨⟨0⟩, some ⟨0⟩, .phi [(⟨0⟩, ⟨0⟩)], .i32⟩], .branch ⟨0⟩⟩,
        ⟨⟨0⟩, "second", [⟨⟨0⟩, some ⟨0⟩, .const (.int 0 .i32), .i32⟩], .ret none⟩]
    next := ⟨0, 0, 0⟩ }

/-- A cut among the phi nodes of the first of two blocks with the same number. -/
theorem eq_of_failed_repeating :
    (Operation.splitLabeled ⟨0⟩ 0 "front").IsEdit ∧
      ((Operation.splitLabeled ⟨0⟩ 0 "front").edit.apply repeating).1 =
        .error (.edit (.splitInPhis ⟨0⟩ 0)) ∧
      ((Operation.splitLabeled ⟨0⟩ 0 "front").edit.apply repeating).2 = repeating := by
  have hedit : (Operation.splitLabeled ⟨0⟩ 0 "front").IsEdit := trivial
  have hfail : (Operation.splitLabeled ⟨0⟩ 0 "front").edit.apply repeating =
    (.error (.edit (.splitInPhis ⟨0⟩ 0)),
      ((Operation.splitLabeled ⟨0⟩ 0 "front").edit.apply repeating).2) := rfl
  exact ⟨hedit, congrArg Prod.fst hfail, eq_of_failed hedit hfail⟩

end Func

end BarrierLowering
