import BarrierLowering.Lower
import BarrierLowering.Text.Blank

/-!
# Pipelines of passes

A pipeline is a comma-separated list of pass names. A name may be followed by a parameter
in angle brackets. The whole text is read before any pass runs.

## Main definitions

* `Pass`, `PassFactory` — a pass, and how one is made from an optional parameter.
* `Registry` — the factories by name; `Registry.builtin` knows the lowering.
* `Registry.create`, `Registry.parse` — read one element, read a pipeline.
* `Registry.run` — read a pipeline and run it.
-/

namespace BarrierLowering

/-- A pass over a program. It reports, or fails and leaves what it had changed so far. -/
structure Pass where
  name : String
  run : Program → Except LoweringError Report × Program

/-- Makes a pass from the parameter that a pipeline gives, if it gives one. -/
abbrev PassFactory := Option String → Except LoweringError Pass

/-! ### The lowering as a pass -/

/-- The name of the lowering in a pipeline. -/
def loweringName : String := "hip-task-sync"

/-- The lowering with the given configuration. -/
def loweringPass (config : Config) : Pass := ⟨loweringName, Program.lower config⟩

/-- The configuration that a parameter of the lowering names. -/
def configNamed? : Option String → Option Config
  | none | some "default" => some .standard
  | some "legacy" => some .legacy
  | some "corrected" => some .corrected
  | some _ => none

/-- Makes the lowering from the name of a configuration. -/
def loweringFactory : PassFactory := fun parameter =>
  match configNamed? parameter with
  | some config => .ok (loweringPass config)
  | none => .error (.config (.unknownParameter loweringName (parameter.getD "")))

/-! ### The registry -/

/-- The factories by name. -/
structure Registry where
  factories : List (String × PassFactory)

namespace Registry

/-- A registry that knows no pass. -/
def empty : Registry := ⟨[]⟩

/-- The factory with the given name. -/
def find? (r : Registry) (name : String) : Option PassFactory := r.factories.lookup name

/-- Whether the registry knows a name. -/
def contains (r : Registry) (name : String) : Bool := (r.find? name).isSome

/-- Add a factory. It takes the place of one with the same name. -/
def register (r : Registry) (name : String) (factory : PassFactory) : Registry :=
  ⟨(name, factory) :: r.factories.filter fun entry => entry.1 ≠ name⟩

/-- A registry that knows the lowering. -/
def builtin : Registry := empty.register loweringName loweringFactory

/-! ### Reading a pipeline -/

/-- The name in a trimmed element, and the parameter after it. An element with an opening
angle bracket has to end in a closing one. -/
def splitElement (element : List Char) : Except LoweringError (String × Option String) :=
  let name := element.takeWhile fun c => c ≠ '<'
  match element.dropWhile fun c => c ≠ '<' with
  | [] => .ok (String.ofList name, none)
  | _ :: rest =>
    if rest.getLast? = some '>' then
      .ok (String.ofList (trimChars name), some (String.ofList (trimChars rest.dropLast)))
    else .error (.config (.unterminatedParameter (String.ofList element)))

/-- Make the pass that one element of a pipeline asks for. -/
def createFrom (r : Registry) (element : List Char) : Except LoweringError Pass := do
  let (name, parameter) ← splitElement (trimChars element)
  match r.find? name with
  | some factory => factory parameter
  | none => throw (.unknownPass name)

/-- Make the pass that one element of a pipeline asks for. -/
def create (r : Registry) (element : String) : Except LoweringError Pass :=
  r.createFrom element.toList

/-- The elements of a pipeline: the pieces between its commas that are not blank. -/
def elements (pipeline : String) : List (List Char) :=
  (pipeline.toList.splitOn ',').filter fun piece => trimChars piece ≠ []

/-- Make every pass that a pipeline asks for, or fail for the first that cannot be made. -/
def parse (r : Registry) (pipeline : String) : Except LoweringError (List Pass) :=
  (elements pipeline).mapM r.createFrom

end Registry

/-! ### Running a pipeline -/

/-- Run passes one after another. The first error ends the run; the
changes before it stay. -/
def runPasses : List Pass → Program → Except LoweringError (List Report) × Program
  | [], p => (.ok [], p)
  | pass :: rest, p =>
    let (result, p) := pass.run p
    match result with
    | .error e => (.error e, p)
    | .ok report =>
      let (reports, p) := runPasses rest p
      (reports.map (report :: ·), p)

/-- Read a pipeline and run it. A pipeline that cannot be read runs nothing. -/
def Registry.run (r : Registry) (pipeline : String) (p : Program) :
    Except LoweringError (List Report) × Program :=
  match r.parse pipeline with
  | .error e => (.error e, p)
  | .ok passes => runPasses passes p

end BarrierLowering
