import BarrierLowering.Pipeline
import BarrierLowering.Proofs.Lowered

/-!
# Pipelines one after another

Two pipelines with a comma between them are one pipeline. The whole text is read before the first
pass runs, so an error in the second half keeps the first half from running; an error of a pass
keeps only the passes behind it from running.

## Main definitions

* `Pass.Succeed` — passes that run one after another without an error.

## Main results

* `Registry.parse_comma` — the passes of both halves, or the first error.
* `Pass.Succeed.runPasses_append` — what stands behind passes that succeed starts where the last of
  them ended.
* `runPasses_eq_ok_iff`, `runPasses_eq_error_iff` — a run succeeds if all passes do, and fails if
  there is a first one that fails.
* `Registry.run_comma` — running two pipelines in one is running them one after the other.
-/

namespace BarrierLowering

/-! ### Rows of passes -/

/-- Passes run one after another without an error: what they report, and what they leave. -/
inductive Pass.Succeed : List Pass → Program → List Report → Program → Prop
  | nil {p : Program} : Succeed [] p [] p
  | cons {pass : Pass} {rest : List Pass} {p p' p'' : Program} {report : Report}
    {reports : List Report} (h : pass.run p = (.ok report, p'))
    (hrest : Succeed rest p' reports p'') : Succeed (pass :: rest) p (report :: reports) p''

section

variable {pass : Pass} {passes rest : List Pass} {p p' p'' : Program} {report : Report}
  {reports : List Report} {error : LoweringError}

theorem runPasses_cons_of_ok (h : pass.run p = (.ok report, p')) :
    runPasses (pass :: rest) p =
      ((runPasses rest p').1.map (report :: ·), (runPasses rest p').2) := by
  rw [runPasses, h]

theorem runPasses_cons_of_error (h : pass.run p = (.error error, p')) :
    runPasses (pass :: rest) p = (.error error, p') := by
  rw [runPasses, h]

/-- What stands behind passes that succeed starts where the last of them ended. -/
theorem Pass.Succeed.runPasses_append (h : Pass.Succeed passes p reports p') (rest : List Pass) :
    runPasses (passes ++ rest) p =
      ((runPasses rest p').1.map (reports ++ ·), (runPasses rest p').2) := by
  induction h with
  | @nil p =>
    rw [List.nil_append]
    rcases runPasses rest p with ⟨_ | _, _⟩ <;> rfl
  | @cons _ _ _ _ last _ _ h _ ih =>
    rw [List.cons_append, runPasses_cons_of_ok h, ih]
    rcases runPasses rest last with ⟨_ | _, _⟩ <;> rfl

theorem Pass.Succeed.runPasses_eq (h : Pass.Succeed passes p reports p') :
    runPasses passes p = (.ok reports, p') := by
  have hall := h.runPasses_append []
  rw [List.append_nil] at hall
  rw [hall, runPasses]
  exact congrArg (fun all => (Except.ok all, p')) (List.append_nil reports)

/-- The first failing pass ends the run. -/
theorem Pass.Succeed.runPasses_of_error (h : Pass.Succeed passes p reports p')
    (hfail : pass.run p' = (.error error, p'')) (rest : List Pass) :
    runPasses (passes ++ pass :: rest) p = (.error error, p'') := by
  rw [h.runPasses_append, runPasses_cons_of_error hfail]
  rfl

/-- All passes succeed, or there is a first one that fails. -/
theorem Pass.exists_succeed_or_error (passes : List Pass) (p : Program) :
    (∃ reports p', Pass.Succeed passes p reports p') ∨
      ∃ front pass back reports left error p', passes = front ++ pass :: back ∧
        Pass.Succeed front p reports left ∧ pass.run left = (.error error, p') := by
  induction passes generalizing p with
  | nil => exact .inl ⟨[], p, .nil⟩
  | cons pass passes ih =>
    rcases hfirst : pass.run p with ⟨error | report, left⟩
    · exact .inr ⟨[], pass, passes, [], p, error, left, rfl, .nil, hfirst⟩
    · rcases ih left with ⟨reports, p', hrest⟩ |
        ⟨front, bad, back, reports, left', error, p', rfl, hfront, hbad⟩
      · exact .inl ⟨report :: reports, p', .cons hfirst hrest⟩
      · exact .inr ⟨pass :: front, bad, back, report :: reports, left', error, p', rfl,
          .cons hfirst hfront, hbad⟩

theorem runPasses_eq_ok_iff :
    runPasses passes p = (.ok reports, p') ↔ Pass.Succeed passes p reports p' := by
  refine ⟨fun h => ?_, Pass.Succeed.runPasses_eq⟩
  rcases Pass.exists_succeed_or_error passes p with
    ⟨_, _, hall⟩ | ⟨front, pass, back, _, _, error, _, rfl, hfront, hfail⟩
  · rw [hall.runPasses_eq] at h
    cases h
    exact hall
  · rw [hfront.runPasses_of_error hfail] at h
    cases h

/-- A run that fails stops at its first failing pass, and leaves what that pass left. -/
theorem runPasses_eq_error_iff :
    runPasses passes p = (.error error, p') ↔
      ∃ front pass back reports left, passes = front ++ pass :: back ∧
        Pass.Succeed front p reports left ∧ pass.run left = (.error error, p') := by
  constructor
  · intro h
    rcases Pass.exists_succeed_or_error passes p with
      ⟨_, _, hall⟩ | ⟨front, pass, back, reports, left, _, _, rfl, hfront, hfail⟩
    · rw [hall.runPasses_eq] at h
      cases h
    · rw [hfront.runPasses_of_error hfail] at h
      cases h
      exact ⟨front, pass, back, reports, left, rfl, hfront, hfail⟩
  · rintro ⟨front, pass, back, reports, left, rfl, hfront, hfail⟩
    exact hfront.runPasses_of_error hfail back

/-- Of two rows of passes, the second does not run if the first one fails. -/
theorem runPasses_append_of_error (h : runPasses passes p = (.error error, p')) :
    runPasses (passes ++ rest) p = (.error error, p') := by
  obtain ⟨front, pass, back, reports, left, rfl, hfront, hfail⟩ := runPasses_eq_error_iff.1 h
  exact runPasses_eq_error_iff.2
    ⟨front, pass, back ++ rest, reports, left, by simp, hfront, hfail⟩

end

/-! ### Two pipelines in one -/

namespace Registry

theorem elements_comma (s t : String) : elements (s ++ "," ++ t) = elements s ++ elements t := by
  have hlist : (s ++ "," ++ t).toList = s.toList ++ ',' :: t.toList := by
    rw [String.toList_append, String.toList_append, List.append_assoc]
    rfl
  rw [elements, hlist, List.splitOn_append_cons_self, List.filter_append, elements, elements]

/-- The passes of the first half and those of the second, or the first error. -/
theorem parse_comma (r : Registry) (s t : String) :
    r.parse (s ++ "," ++ t) = do
      let passes ← r.parse s
      let rest ← r.parse t
      return passes ++ rest := by
  rw [parse, elements_comma, List.mapM_append]
  rfl

theorem run_of_error {r : Registry} {s : String} {error : LoweringError}
    (h : r.parse s = .error error) (p : Program) : r.run s p = (.error error, p) := by
  rw [run, h]

theorem run_of_ok {r : Registry} {s : String} {passes : List Pass} (h : r.parse s = .ok passes)
    (p : Program) : r.run s p = runPasses passes p := by
  rw [run, h]

/-- **Pipelines compose, and fail before they touch the program.**  Put a comma between two texts.
If one of them cannot be read, running the whole gives the error of the first that cannot, and the
program stays as it is, whatever the passes in front of the bad element would have done to it. If
both can be read, running the whole is running the first and then, unless it failed, the second on
what the first left; the reports come one after another. The whole succeeds if and only if every
pass does, each on what the one before it left. It fails if and only if there is a first pass that
fails, with the error of that pass, and leaves the program as that pass left it. -/
theorem run_comma (r : Registry) (s t : String) (p : Program) :
    match r.parse s, r.parse t with
    | .error error, _ => r.run (s ++ "," ++ t) p = (.error error, p)
    | .ok _, .error error => r.run (s ++ "," ++ t) p = (.error error, p)
    | .ok passes, .ok rest =>
      (r.run (s ++ "," ++ t) p =
        match r.run s p with
        | (.error error, p') => (.error error, p')
        | (.ok reports, p') =>
          match r.run t p' with
          | (.error error, p'') => (.error error, p'')
          | (.ok reports', p'') => (.ok (reports ++ reports'), p'')) ∧
      (∀ reports p', r.run (s ++ "," ++ t) p = (.ok reports, p') ↔
        Pass.Succeed (passes ++ rest) p reports p') ∧
      ∀ error p', r.run (s ++ "," ++ t) p = (.error error, p') ↔
        ∃ front pass back reports left, passes ++ rest = front ++ pass :: back ∧
          Pass.Succeed front p reports left ∧ pass.run left = (.error error, p') := by
  have hparse := r.parse_comma s t
  rcases hs : r.parse s with error | passes
  · rw [hs] at hparse
    exact run_of_error hparse p
  rcases ht : r.parse t with error | rest
  · rw [hs, ht] at hparse
    exact run_of_error hparse p
  rw [hs, ht] at hparse
  have hrun : r.run (s ++ "," ++ t) p = runPasses (passes ++ rest) p := run_of_ok hparse p
  rw [hrun]
  refine ⟨?_, fun _ _ => runPasses_eq_ok_iff, fun _ _ => runPasses_eq_error_iff⟩
  rw [run_of_ok hs]
  rcases hfirst : runPasses passes p with ⟨error | reports, p'⟩
  · exact runPasses_append_of_error hfirst
  · rw [(runPasses_eq_ok_iff.1 hfirst).runPasses_append]
    dsimp only
    rw [run_of_ok ht]
    rcases runPasses rest p' with ⟨error | reports', p''⟩ <;> rfl

/-- A registry that also knows a pass that gives a program another name. -/
def withRename : Registry :=
  builtin.register "rename" fun parameter =>
    .ok ⟨"rename", fun p => (.ok ⟨[]⟩, { p with name := parameter.getD p.name })⟩

/-- Of three passes the second one fails: the program has the name that the first pass gave it, and
the kernel that the second one left. -/
theorem run_comma_withRename : ∃ passes rest g,
    withRename.parse "rename<first>" = .ok passes ∧
    withRename.parse "hip-task-sync,rename<last>" = .ok rest ∧
    g.defects = [.notDominated ⟨3⟩ ⟨2⟩] ∧
    withRename.run ("rename<first>" ++ "," ++ "hip-task-sync,rename<last>") ⟨"main", [.trapped]⟩ =
      (.error (.invalid ⟨g.name, g.defects⟩), ⟨"first", [g]⟩) := by
  have hfirst : ∃ pass, withRename.parse "rename<first>" = .ok [pass] ∧
      ∀ p, pass.run p = (.ok ⟨[]⟩, { p with name := "first" }) := ⟨_, rfl, fun _ => rfl⟩
  have hrest : ∃ last, withRename.parse "hip-task-sync,rename<last>" =
      .ok [loweringPass .standard, last] := ⟨_, rfl⟩
  obtain ⟨pass, hfirst, hrename⟩ := hfirst
  obtain ⟨last, hrest⟩ := hrest
  obtain ⟨g, hfail, hdefects⟩ := Func.lowerAndVerify_trapped
  refine ⟨_, _, g, hfirst, hrest, hdefects, ?_⟩
  have hcomma := withRename.run_comma "rename<first>" "hip-task-sync,rename<last>"
    ⟨"main", [.trapped]⟩
  rw [hfirst, hrest] at hcomma
  refine (hcomma.2.2 _ _).2 ⟨[pass], loweringPass .standard, [last], _, _, rfl,
    .cons (hrename _) .nil, ?_⟩
  show Program.lower .standard ⟨"first", [.trapped]⟩ = _
  rw [Program.lower, lowerFuncs_cons_of_error rfl hfail]
  rfl

end Registry

end BarrierLowering
