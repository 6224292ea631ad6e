import BarrierLowering.Proofs.Fresh
import BarrierLowering.Proofs.Lowered

/-!
# The kernels of a program one by one

The pass goes through the functions of a program in order. What it makes of a function depends on
this function alone, and so does the error that ends the run. A kernel that was lowered is never
the kernel that it was, since the first split takes a number for a new block and no number is ever
taken back.

## Main definitions

* `Program.alone` — the program with one function in the place of all.
* `Edit.TakesBlock` — an edit that cannot succeed without a number for a new block.
* `Func.Lowers` — what the pass reports of one function, and what it leaves.

## Main results

* `lowerFuncs_cons` — the first function is lowered on its own, then the others.
* `lowerFuncs_changed_iff` — a kernel was lowered if and only if some function has changed.
* `Program.lower_kernelwise` — the pass treats each kernel as if it were alone.
-/

namespace BarrierLowering

/-- The program with one function in the place of all. -/
def Program.alone (p : Program) (f : Func) : Program := { p with funcs := [f] }

/-! ### Edits that leave a mark -/

namespace Edit

variable {ε α β : Type} {e : Edit ε α} {k : α → Edit ε β} {f g : Func}

/-- If two edits in a row succeed, so does each of them. -/
theorem exists_of_apply_bind {b : β} (h : (e >>= k).apply f = (.ok b, g)) :
    ∃ a f', e.apply f = (.ok a, f') ∧ (k a).apply f' = (.ok b, g) := by
  rw [apply_bind] at h
  split at h
  · next a f' he => exact ⟨a, f', he, h⟩
  · cases h

/-- An edit that takes a number for a new block whenever it succeeds. -/
def TakesBlock (e : Edit ε α) : Prop :=
  ∀ (f g : Func) (a : α), e.apply f = (.ok a, g) → f.next.block < g.next.block

theorem TakesBlock.bind (he : e.TakesBlock) (hk : ∀ a, (k a).Grows) : (e >>= k).TakesBlock := by
  intro f g b h
  obtain ⟨a, f', hfirst, hrest⟩ := exists_of_apply_bind h
  have hgrows := (hk a f').next.1
  rw [hrest] at hgrows
  exact (he f f' a hfirst).trans_le hgrows

theorem Grows.bind_takesBlock (he : e.Grows) (hk : ∀ a, (k a).TakesBlock) :
    (e >>= k).TakesBlock := by
  intro f g b h
  obtain ⟨a, f', hfirst, hrest⟩ := exists_of_apply_bind h
  have hgrows := (he f).next.1
  rw [hfirst] at hgrows
  exact lt_of_le_of_lt hgrows (hk a f' g b hrest)

theorem TakesBlock.lift {e : Edit EditError α} (he : e.TakesBlock) : (lift e).TakesBlock := by
  intro f g a h
  rw [apply_lift] at h
  split at h <;> cases h
  next hok => exact he f g a hok

theorem takesBlock_splitLabeled (b : BlockId) (index : Nat) (label : String) :
    (splitLabeled b index label).TakesBlock := by
  intro f g n h
  rcases splitLabeled_cases f b index label with ⟨e, he⟩ | ⟨blk, -, -, -, hok⟩
  · rw [he] at h
    cases h
  · rw [hok] at h
    cases h
    exact Nat.lt_succ_self _

theorem takesBlock_isolate (first last : InstrId) (label : String) :
    (isolate first last label).TakesBlock :=
  (grows_require _ _).bind_takesBlock fun _ => (grows_split _ _).bind_takesBlock fun _ =>
    (grows_require _ _).bind_takesBlock fun _ => takesBlock_splitLabeled _ _ _

end Edit

namespace Plan

theorem takesBlock_buildRegions (plan : Plan) : plan.buildRegions.TakesBlock :=
  (Edit.takesBlock_isolate _ _ _).lift.bind fun _ =>
    (Edit.composes_grows.mapM (fun i => Edit.composes_grows.lift
      (stepwise_grows.isolate i i _)) _).bind
      fun _ => Edit.grows_get.bind fun _ => Edit.grows_liftExcept _

theorem takesBlock_carryOut (plan : Plan) (config : Config) : (plan.carryOut config).TakesBlock :=
  plan.takesBlock_buildRegions.bind (stepwise_grows.wraps plan config)

end Plan

/-! ### One function -/

namespace Func

variable {config : Config} {f g : Func} {outcome : Outcome} {reports : List FuncReport}
  {e : LoweringError} {rest : List Func} {p : Program}

/-- A kernel that was lowered has changed, and a kernel that was skipped has not. -/
theorem isTransformed_iff_ne (h : (lowerKernel config).apply f = (.ok outcome, g)) :
    outcome.isTransformed = true ↔ g ≠ f := by
  cases hplan : f.plan config with
  | error reason =>
    rw [apply_lowerKernel_of_error hplan] at h
    cases h
    exact iff_of_false Bool.false_ne_true fun hne => hne rfl
  | ok plan =>
    unfold lowerKernel at h
    rw [Edit.apply_bind, Edit.apply_get] at h
    dsimp only at h
    rw [hplan] at h
    obtain ⟨loops, f', hcarry, hreturn⟩ := Edit.exists_of_apply_bind h
    cases hreturn
    have hlt := plan.takesBlock_carryOut config f g loops hcarry
    exact iff_of_true rfl fun heq => hlt.ne (by rw [heq])

/-- The check of a lowered kernel changes nothing. -/
theorem apply_lowerKernel_of_lowerAndVerify
    (h : (lowerAndVerify config).apply f = (.ok outcome, g)) :
    (lowerKernel config).apply f = (.ok outcome, g) := by
  obtain ⟨outcome', f', hlower, -⟩ := Edit.exists_of_apply_bind h
  rw [apply_lowerAndVerify_of_ok hlower] at h
  split at h <;> cases h
  exact hlower

theorem grows_lowerAndVerify (config : Config) : (lowerAndVerify config).Grows := by
  refine (grows_lowerKernel config).bind fun outcome => ?_
  cases outcome.isTransformed && config.verifyAfter with
  | false => exact Edit.grows_pure outcome
  | true =>
    refine Edit.grows_get.bind fun g => ?_
    cases g.verify with
    | ok => exact Edit.grows_pure outcome
    | error cause => exact (Edit.grows_throw _).bind fun _ => Edit.grows_pure outcome

/-- What the pass reports of a function, and what it leaves. -/
inductive Lowers (config : Config) (f : Func) :
    Except LoweringError (List FuncReport) → Func → Prop
  /-- Only kernels are looked at. -/
  | other (hother : f.isKernel = false) : Lowers config f (.ok []) f
  | reported {outcome : Outcome} {g : Func} (hkernel : f.isKernel = true)
    (h : (lowerAndVerify config).apply f = (.ok outcome, g)) :
    Lowers config f (.ok [⟨g.name, outcome⟩]) g
  | failed {e : LoweringError} {g : Func} (hkernel : f.isKernel = true)
    (h : (lowerAndVerify config).apply f = (.error e, g)) : Lowers config f (.error e) g

/-- The same function by name and by the way it is called, and the same altogether if it is no
kernel. -/
structure Corresponds (f g : Func) : Prop where
  name : g.name = f.name
  convention : g.convention = f.convention
  other : f.isKernel = false → g = f

theorem Corresponds.refl (f : Func) : f.Corresponds f := ⟨rfl, rfl, fun _ => rfl⟩

theorem exists_lowers (config : Config) (f : Func) : ∃ result g, f.Lowers config result g := by
  cases hkernel : f.isKernel with
  | false => exact ⟨_, f, .other hkernel⟩
  | true =>
    rcases happly : (lowerAndVerify config).apply f with ⟨e | outcome, g⟩
    · exact ⟨_, g, .failed hkernel happly⟩
    · exact ⟨_, g, .reported hkernel happly⟩

namespace Lowers

theorem corresponds {result : Except LoweringError (List FuncReport)}
    (h : f.Lowers config result g) : f.Corresponds g := by
  have hgrows := grows_lowerAndVerify config f
  cases h with
  | other => exact .refl f
  | reported hkernel h | failed hkernel h =>
    rw [h] at hgrows
    exact ⟨hgrows.name, hgrows.convention, fun hother => by rw [hother] at hkernel; cases hkernel⟩

/-- The functions behind are lowered once this one is. -/
theorem cons (h : f.Lowers config (.ok reports) g) : lowerFuncs config (f :: rest) =
    ((lowerFuncs config rest).1.map (reports ++ ·), g :: (lowerFuncs config rest).2) := by
  cases h with
  | other hother =>
    rw [lowerFuncs_cons_of_not_kernel hother]
    cases (lowerFuncs config rest).1 <;> rfl
  | reported hkernel h => exact lowerFuncs_cons_of_ok hkernel h

/-- The functions behind are not looked at if this one fails. -/
theorem cons_error (h : f.Lowers config (.error e) g) :
    lowerFuncs config (f :: rest) = (.error e, g :: rest) := by
  cases h with
  | failed hkernel h => exact lowerFuncs_cons_of_error hkernel h

theorem alone (h : f.Lowers config (.ok reports) g) :
    (p.alone f).lower config = (.ok ⟨reports⟩, p.alone g) := by
  rw [Program.lower, Program.alone, h.cons]
  simp [lowerFuncs, Program.alone, Except.map]

theorem alone_error (h : f.Lowers config (.error e) g) :
    (p.alone f).lower config = (.error e, p.alone g) := by
  rw [Program.lower, Program.alone, h.cons_error]
  rfl

/-- Some kernel is reported as lowered if and only if the function has changed. -/
theorem changed_iff (h : f.Lowers config (.ok reports) g) :
    (reports.any fun entry => entry.outcome.isTransformed) = true ↔ g ≠ f := by
  cases h with
  | other => exact iff_of_false Bool.false_ne_true fun hne => hne rfl
  | reported hkernel h =>
    rw [List.any_cons, List.any_nil, Bool.or_false]
    exact isTransformed_iff_ne (apply_lowerKernel_of_lowerAndVerify h)

end Lowers

end Func

/-! ### All functions -/

section

variable {config : Config} {f g : Func} {fs gs : List Func} {reports : List FuncReport}
  {e : LoweringError}

/-- If the run succeeds, every function is lowered, and every kernel is reported. -/
theorem lowers_of_lowerFuncs (h : lowerFuncs config fs = (.ok reports, gs)) :
    List.Forall₂ (fun f g => ∃ own, f.Lowers config (.ok own) g) fs gs ∧
      List.Forall₂ (fun f entry => ∃ g, f.Lowers config (.ok [entry]) g)
        (fs.filter (·.isKernel)) reports ∧
      ((reports.any fun entry => entry.outcome.isTransformed) = true ↔ gs ≠ fs) := by
  induction fs generalizing gs reports with
  | nil =>
    cases h
    exact ⟨.nil, .nil, iff_of_false Bool.false_ne_true fun hne => hne rfl⟩
  | cons f rest ih =>
    obtain ⟨result, g, hfirst⟩ := f.exists_lowers config
    cases result with
    | error e =>
      rw [hfirst.cons_error] at h
      cases h
    | ok own =>
      rw [hfirst.cons] at h
      rcases hrest : lowerFuncs config rest with ⟨e | tail, rest'⟩ <;> rw [hrest] at h <;> cases h
      obtain ⟨hall, hreports, hchanged⟩ := ih hrest
      refine ⟨.cons ⟨own, hfirst⟩ hall, ?_, ?_⟩
      · cases hfirst with
        | other hother =>
          rw [List.filter_cons_of_neg (by rw [hother]; exact Bool.false_ne_true)]
          exact hreports
        | reported hkernel happly =>
          rw [List.filter_cons_of_pos hkernel]
          exact .cons ⟨g, .reported hkernel happly⟩ hreports
      · rw [List.any_append, Bool.or_eq_true, hfirst.changed_iff, hchanged, Ne, Ne, Ne,
          List.cons.injEq]
        tauto

/-- If the run fails, it failed for one kernel; the functions in front of it were lowered, and
those behind it were not looked at. -/
theorem exists_of_lowerFuncs_error (h : lowerFuncs config fs = (.error e, gs)) :
    ∃ before f after lowered f', fs = before ++ f :: after ∧ gs = lowered ++ f' :: after ∧
      List.Forall₂ (fun k k' => ∃ own, k.Lowers config (.ok own) k') before lowered ∧
      f.Lowers config (.error e) f' := by
  induction fs generalizing gs with
  | nil => cases h
  | cons f rest ih =>
    obtain ⟨result, g, hfirst⟩ := f.exists_lowers config
    cases result with
    | error e' =>
      rw [hfirst.cons_error] at h
      cases h
      exact ⟨[], f, rest, [], g, rfl, rfl, .nil, hfirst⟩
    | ok own =>
      rw [hfirst.cons] at h
      rcases hrest : lowerFuncs config rest with ⟨e' | tail, rest'⟩ <;> rw [hrest] at h <;> cases h
      obtain ⟨before, k, after, lowered, k', rfl, rfl, hall, hk⟩ := ih hrest
      exact ⟨f :: before, k, after, g :: lowered, k', rfl, rfl, .cons ⟨own, hfirst⟩ hall, hk⟩

end

namespace Program

variable {p : Program} {config : Config}

/-- **The pass treats each kernel as if it were alone.**  The name of the program stays, and so do
the number and the order of its functions, with their names; what is no kernel does not change.
If the pass succeeds, it leaves each function as it leaves the function in a program of its own,
and reports each kernel in order, as it reports it there; some kernel was lowered if and only if
the program has changed. If the pass fails, it fails with the error of a kernel that fails in a
program of its own. The functions in front of this kernel are left as they are left alone,
without an error, and the functions behind it stay as they are. -/
theorem lower_kernelwise (p : Program) (config : Config) :
    (p.lower config).2.name = p.name ∧
      List.Forall₂ Func.Corresponds p.funcs (p.lower config).2.funcs ∧
      match p.lower config with
      | (.ok report, p') =>
        List.Forall₂ (fun f g => ((p.alone f).lower config).2 = p.alone g) p.funcs p'.funcs ∧
          List.Forall₂ (fun f entry => entry.name = f.name ∧
            ((p.alone f).lower config).1 = .ok ⟨[entry]⟩)
            (p.funcs.filter (·.isKernel)) report.functions ∧
          (report.changed = true ↔ p' ≠ p)
      | (.error e, p') =>
        ∃ before f after lowered f', p.funcs = before ++ f :: after ∧
          p'.funcs = lowered ++ f' :: after ∧
          List.Forall₂ (fun k k' => ∃ report, (p.alone k).lower config = (.ok report, p.alone k'))
            before lowered ∧
          f.isKernel = true ∧ (p.alone f).lower config = (.error e, p.alone f') := by
  have hlower : p.lower config = ((lowerFuncs config p.funcs).1.map Report.mk,
      { p with funcs := (lowerFuncs config p.funcs).2 }) := rfl
  rw [hlower]
  rcases hfuncs : lowerFuncs config p.funcs with ⟨e | reports, gs⟩
  · obtain ⟨before, f, after, lowered, f', hsplit, rfl, hall, hf⟩ :=
      exists_of_lowerFuncs_error hfuncs
    refine ⟨rfl, ?_, before, f, after, lowered, f', hsplit, rfl, ?_, ?_, hf.alone_error⟩
    · rw [hsplit]
      refine List.rel_append (hall.imp fun k k' ⟨own, hk⟩ => hk.corresponds) ?_
      exact .cons hf.corresponds (List.forall₂_same.2 fun k _ => .refl k)
    · exact hall.imp fun k k' ⟨own, hk⟩ => ⟨⟨own⟩, hk.alone⟩
    · cases hf with
      | failed hkernel => exact hkernel
  · obtain ⟨hall, hreports, hchanged⟩ := lowers_of_lowerFuncs hfuncs
    refine ⟨rfl, hall.imp fun f g ⟨own, hf⟩ => hf.corresponds, ?_, ?_, ?_⟩
    · exact hall.imp fun f g ⟨own, hf⟩ => congrArg Prod.snd hf.alone
    · refine hreports.imp fun f entry ⟨g, hf⟩ => ⟨?_, congrArg Prod.fst (hf.alone (p := p))⟩
      have hname := hf.corresponds.name
      cases hf
      exact hname
    · refine hchanged.trans (not_congr ⟨fun heq => ?_, congrArg Program.funcs⟩)
      rw [heq]

end Program

end BarrierLowering
