import BarrierLowering.Config
import BarrierLowering.Func

/-!
# Plans and rejections

A kernel is lowered only if its barriers run one after another in a fixed order. The
analysis answers with a plan, which holds what the lowering needs, or with the reason why
the kernel is left as it is.

## Main definitions

* `Pattern` — the control flow around a barrier.
* `Queries` — the group queries of a kernel, `Plan` — the queries and the barriers.
* `Rejection` — why there is no plan, with its text.
-/

namespace BarrierLowering

/-- The control flow around a barrier. -/
inductive Pattern
  /-- Not looked at yet. -/
  | unsolved
  /-- Every path to an exit runs it, and no cycle does. -/
  | simple
  /-- Some path to an exit goes past it. -/
  | inBranch
  /-- Its block is on a cycle. -/
  | inLoop
  /-- It is not in the common sequence of the paths. -/
  | unsupported
  deriving DecidableEq

/-- The text of a pattern. -/
def Pattern.text : Pattern → String
  | .unsolved => "unsolved"
  | .simple => "simple"
  | .inBranch => "in a branch body"
  | .inLoop => "in a loop body"
  | .unsupported => "unsupported"

/-- A barrier, the block that holds it, and the control flow around it. -/
structure BarrierRecord where
  instr : InstrId
  block : BlockId
  pattern : Pattern
  deriving DecidableEq

/-- The group queries of a kernel. -/
structure Queries where
  /-- The last query of the rank in the entry block. -/
  rankQuery : InstrId
  /-- The last of the rank query and the size query. -/
  anchor : InstrId
  rank : ValueId
  size : ValueId
  rankTy : Ty
  /-- The type of the group size, in which the generated loops count. -/
  sizeTy : Ty
  deriving DecidableEq

/-- What the lowering of a kernel needs to know. -/
structure Plan extends Queries where
  /-- The barriers, in the order in which they run. -/
  barriers : List InstrId
  records : List BarrierRecord
  pathsExamined : Nat
  deriving DecidableEq

/-- Why a kernel is left as it is. -/
inductive Rejection
  | noBlocks
  | noRankQuery
  | noSizeQuery
  | barrierBeforeQueries (barrier : InstrId)
  | noBarriers
  /-- A path visits some of the blocks with barriers, but not all. -/
  | partialVisit (path visited total : Nat)
  /-- A path meets the barriers in another order than a path before it. -/
  | orderMismatch (path : Nat)
  | noBarrierPath
  | tooManyPaths (limit : Nat)
  | unsupportedPattern (barrier : InstrId) (block : BlockId) (pattern : Pattern)
  /-- A value is defined between two barriers and read after the second. -/
  | liveAcrossBarrier (value : ValueId) (barrier : InstrId)
  deriving DecidableEq

/-- The text of a rejection. -/
def Rejection.text : Rejection → String
  | .noBlocks => "function has no blocks"
  | .noRankQuery => "entry block has no thread-rank query"
  | .noSizeQuery => "entry block has no group-size query"
  | .barrierBeforeQueries barrier => "sync call " ++ barrier.text ++ " precedes the group queries"
  | .noBarriers => "no cooperative-group sync calls"
  | .partialVisit path visited total =>
    "path " ++ toString path ++ " visits " ++ toString visited ++ " of " ++ toString total ++
      " sync blocks"
  | .orderMismatch path =>
    "path " ++ toString path ++ " reaches the sync calls in a different order"
  | .noBarrierPath => "no path visits every sync block"
  | .tooManyPaths limit => "more than " ++ toString limit ++ " control-flow paths"
  | .unsupportedPattern barrier block pattern =>
    "sync call " ++ barrier.text ++ " in " ++ block.text ++ " is " ++ pattern.text
  | .liveAcrossBarrier value barrier =>
    value.text ++ " is defined before sync call " ++ barrier.text ++ " and used after it"

end BarrierLowering
