import BarrierLowering.Defect
import BarrierLowering.Edit

/-!
# Errors of the lowering

An error aborts a pass. A kernel that merely does not fit is rejected, which is no error.

## Main definitions

* `RegionFault` — what is wrong with the blocks around a barrier.
* `ConfigError` — what is wrong with a configuration.
* `LoweringError` — every error, with its text, its code and its hint.
-/

namespace BarrierLowering

/-- What is wrong with the blocks around a barrier. -/
inductive RegionFault
  /-- The block in front of the region does not have exactly one successor. -/
  | successors (block : BlockId) (found : List BlockId)
  /-- Another block branches to the first block of the region. -/
  | enteredFromOutside (block : BlockId)
  /-- The block of the barrier does not have exactly one predecessor. -/
  | predecessors (block : BlockId) (found : List BlockId)
  deriving DecidableEq

/-- The text of a fault. -/
def RegionFault.text : RegionFault → String
  | .successors block found => block.text ++ " has successors " ++ BlockId.listText found
  | .enteredFromOutside block => block.text ++ " is entered from outside the region"
  | .predecessors block found => block.text ++ " has predecessors " ++ BlockId.listText found

/-- What is wrong with a configuration, in a document or in a pipeline. -/
inductive ConfigError
  /-- A word stands where only the expected ones may. -/
  | unknownWord (word : String) (expected : List String)
  /-- A field is given a second time. -/
  | duplicateField (field : String)
  /-- The document is not of the form that a configuration has. -/
  | malformedDocument
  /-- An angle bracket is not closed at the end of the element. -/
  | unterminatedParameter (element : String)
  /-- A pass does not know this parameter. -/
  | unknownParameter (pass parameter : String)
  /-- A pass refuses its parameter for a reason of its own. -/
  | refused (reason : String)
  deriving DecidableEq

/-- A text between back quotes. -/
def quoted (text : String) : String := "`" ++ text ++ "`"

/-- The text of an error in a configuration. -/
def ConfigError.text : ConfigError → String
  | .unknownWord word expected =>
    "unknown variant " ++ quoted word ++ ", expected " ++ " or ".intercalate (expected.map quoted)
  | .duplicateField field => "duplicate field " ++ quoted field
  | .malformedDocument => "malformed document"
  | .unterminatedParameter element => "unterminated parameter in " ++ quoted element
  | .unknownParameter pass parameter => "unknown " ++ pass ++ " parameter " ++ quoted parameter
  | .refused reason => reason

/-- An error that aborts a pass. -/
inductive LoweringError
  /-- The value that counts the iterations of a loop is not the result of a phi node. -/
  | missingPhi (function : String) (value : ValueId)
  | malformedRegion (function : String) (barrier : InstrId) (fault : RegionFault)
  | edit (cause : EditError)
  /-- A kernel is not well formed after it was lowered. -/
  | invalid (cause : InvalidFunc)
  | unknownPass (name : String)
  | config (cause : ConfigError)
  deriving DecidableEq

namespace LoweringError

/-- The text of an error. -/
def text : LoweringError → String
  | .missingPhi function value =>
    "loop header value " ++ value.text ++ " in " ++ quoted function ++ " is not a phi node"
  | .malformedRegion function barrier fault =>
    "region around " ++ barrier.text ++ " in " ++ quoted function ++ " is malformed: " ++ fault.text
  | .edit cause => cause.text
  | .invalid cause =>
    quoted cause.name ++ " failed verification after task sync: " ++
      "; ".intercalate (cause.defects.map (·.text))
  | .unknownPass name => "unknown pass " ++ quoted name ++ " in pipeline"
  | .config cause => "invalid task-sync configuration: " ++ cause.text

/-- The code that a diagnostic shows for an error. -/
def code : LoweringError → String
  | .missingPhi _ _ => "hip_task_sync::missing_phi"
  | .malformedRegion _ _ _ => "hip_task_sync::malformed_region"
  | .edit _ => "hip_task_sync::ir"
  | .invalid _ => "hip_task_sync::verify"
  | .unknownPass _ => "hip_task_sync::unknown_pass"
  | .config _ => "hip_task_sync::config"

/-- The hint that a diagnostic adds to an error. -/
def help? : LoweringError → Option String
  | .missingPhi _ _ =>
    some "the region header was modified between loop construction and closing"
  | .invalid _ => some "this is a bug in the task-sync rewrite; please report the input kernel"
  | .unknownPass _ => some "available passes: hip-task-sync"
  | .malformedRegion _ _ _ | .edit _ | .config _ => none

end LoweringError

end BarrierLowering
