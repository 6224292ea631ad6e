import BarrierLowering.Analysis
import BarrierLowering.TurnLoop

/-!
# Lowering the barriers of a program

The pass looks at each kernel of a program in turn. A kernel with a plan is lowered, one
without is left as it is and reported with the reason; other functions are not looked at.

## Main definitions

* `Outcome`, `FuncReport`, `Report` — what became of each kernel.
* `Plan.carryOut` — lower one kernel as planned.
* `lowerKernel` — plan one kernel and lower it.
* `Program.lower` — the pass.
-/

namespace BarrierLowering

/-! ### Reports -/

/-- What became of a kernel. -/
inductive Outcome
  /-- Each region is wrapped in a loop now; the loops come in the order of the barriers. -/
  | transformed (loops : List TurnLoop)
  /-- The kernel is as it was. -/
  | skipped (reason : Rejection)
  deriving DecidableEq

namespace Outcome

/-- The generated loops. -/
def loops : Outcome → List TurnLoop
  | .transformed loops => loops
  | .skipped _ => []

/-- Why the kernel was left as it was. -/
def reason? : Outcome → Option Rejection
  | .transformed _ => none
  | .skipped reason => some reason

/-- Whether the kernel was lowered. -/
def isTransformed (o : Outcome) : Bool := o.reason?.isNone

end Outcome

/-- What became of the kernel with the given name. -/
structure FuncReport where
  name : String
  outcome : Outcome
  deriving DecidableEq

/-- What became of the kernels of a program, in program order. -/
structure Report where
  functions : List FuncReport
  deriving DecidableEq

namespace Report

/-- The kernels that were lowered. -/
def transformed (r : Report) : List FuncReport :=
  r.functions.filter fun f => f.outcome.isTransformed

/-- The kernels that were left as they were, each with the reason. -/
def skipped (r : Report) : List (String × Rejection) :=
  r.functions.filterMap fun f => f.outcome.reason?.map fun reason => (f.name, reason)

/-- Whether any kernel was lowered. -/
def changed (r : Report) : Bool := r.functions.any fun f => f.outcome.isTransformed

/-- What became of the first kernel with the given name. -/
def outcome? (r : Report) (name : String) : Option Outcome :=
  (r.functions.find? fun f => f.name = name).map (·.outcome)

/-- The number of generated loops. -/
def loopCount (r : Report) : Nat := (r.functions.flatMap fun f => f.outcome.loops).length

/-- A line of totals, and one for each kernel that was left as it was. -/
def summary (r : Report) : String :=
  "task sync: " ++ toString r.functions.length ++ " kernel(s), " ++
    toString r.transformed.length ++ " transformed, " ++ toString r.loopCount ++ " loop(s)\n" ++
    String.join (r.skipped.map fun (name, reason) =>
      "  skipped " ++ name ++ ": " ++ reason.text ++ "\n")

end Report

/-! ### One kernel -/

/-- Lower a kernel as planned: build a loop around each region and, if asked for, remove the
barriers. -/
def Plan.carryOut (plan : Plan) (config : Config) : Edit LoweringError (List TurnLoop) := do
  let regions ← plan.buildRegions
  let loops ← regions.mapM fun region => region.wrap config.turnGuard plan
  if config.eraseBarriers then
    plan.barriers.forM fun barrier => discard (Edit.lift (Edit.remove barrier))
  return loops

/-- Plan a kernel and lower it, or leave it as it is. -/
def lowerKernel (config : Config) : Edit LoweringError Outcome := do
  match (← get).plan config with
  | .error reason => return .skipped reason
  | .ok plan => return .transformed (← plan.carryOut config)

/-- Plan and lower a kernel, and check the result if asked for. -/
def lowerAndVerify (config : Config) : Edit LoweringError Outcome := do
  let outcome ← lowerKernel config
  if outcome.isTransformed && config.verifyAfter then
    match (← get).verify with
    | .ok () => pure ()
    | .error cause => throw (.invalid cause)
  return outcome

/-! ### All kernels -/

/-- Lower the kernels of a list of functions. The first error ends the run; what
was lowered before it stays lowered. -/
def lowerFuncs (config : Config) : List Func → Except LoweringError (List FuncReport) × List Func
  | [] => (.ok [], [])
  | f :: rest =>
    if f.isKernel then
      let (result, f) := (lowerAndVerify config).apply f
      match result with
      | .error e => (.error e, f :: rest)
      | .ok outcome =>
        let (reports, rest) := lowerFuncs config rest
        (reports.map (⟨f.name, outcome⟩ :: ·), f :: rest)
    else
      let (reports, rest) := lowerFuncs config rest
      (reports, f :: rest)

/-- Lower the kernels of a program. -/
def Program.lower (config : Config) (p : Program) : Except LoweringError Report × Program :=
  let (reports, funcs) := lowerFuncs config p.funcs
  (reports.map Report.mk, { p with funcs })

end BarrierLowering
