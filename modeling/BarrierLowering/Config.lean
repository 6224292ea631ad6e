import BarrierLowering.CallKind
import BarrierLowering.Paths

/-!
# Configuration

## Main definitions

* `TurnGuard` — how a generated loop tells whose turn it is.
* `Config` — the settings of the lowering.
* `Config.standard`, `Config.legacy`, `Config.corrected` — the named configurations.
-/

namespace BarrierLowering

/-- Which thread of the group runs a region in a given iteration of its loop. -/
inductive TurnGuard
  /-- Every thread whose rank and the group size have no bit in common, in each iteration. -/
  | rankAndSize
  /-- The thread whose rank is the number of the iteration. -/
  | rankEqualsIteration
  deriving DecidableEq

/-- The settings of the lowering. -/
structure Config where
  /-- How calls are recognised. -/
  nameRule : NameRule
  /-- The test at the head of each generated loop. -/
  turnGuard : TurnGuard
  /-- The greatest number of paths to look at in one function. -/
  maxPaths : Nat
  /-- Check each kernel after it was lowered. -/
  verifyAfter : Bool
  /-- Remove the barriers once the loops stand in for them. -/
  eraseBarriers : Bool
  deriving DecidableEq

namespace Config

/-- The settings that hold where nothing else is asked for. -/
def standard : Config := ⟨.intrinsics, .rankAndSize, defaultMaxPaths, true, false⟩

/-- Recognise calls by keyword. -/
def legacy : Config := { standard with nameRule := .substring }

/-- Give each iteration to exactly one thread. -/
def corrected : Config := { standard with turnGuard := .rankEqualsIteration }

end Config

end BarrierLowering
