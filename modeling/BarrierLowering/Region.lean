import BarrierLowering.LoweringError
import BarrierLowering.Plan

/-!
# Regions

Each barrier closes a region: the code between the barrier before it, or the group queries,
and the barrier itself. To make regions visible in the control flow, the group queries and
each barrier are moved to blocks of their own.

## Main definitions

* `Region` — the blocks around the code that one barrier closes.
* `Edit.isolate` — move a run of instructions to a block of its own.
* `Func.regionsFrom` — read the regions off a function.
* `Plan.buildRegions` — isolate, then read off.
-/

namespace BarrierLowering

/-- The blocks around the code that one barrier closes. -/
structure Region where
  /-- The barrier. -/
  key : InstrId
  /-- The block of the barrier before, or of the group queries. -/
  pred : BlockId
  /-- The first block of the region. -/
  start : BlockId
  /-- The last block of the region. -/
  exit : BlockId
  /-- The block of the barrier. -/
  succ : BlockId
  deriving DecidableEq

namespace Edit

/-- Let an edit fail with an error of the lowering. -/
def lift {α : Type} (e : Edit EditError α) : Edit LoweringError α := ExceptT.adapt .edit e

/-- Move the instructions from `first` to `last` to a block of their own. What stands in
front of them in their block is split off first. -/
def isolate (first last : InstrId) (label : String) : Edit EditError BlockId := do
  let (home, index) ← require (.unknownInstr first) (·.locate? first)
  let _ ← split home index
  let (home, index) ← require (.unknownInstr last) (·.locate? last)
  splitLabeled home (index + 1) label

end Edit

/-- The region between the block `pred` and the block `succ` of the barrier `key`. -/
def Func.region (f : Func) (pred : BlockId) (key : InstrId) (succ : BlockId) :
    Except RegionFault Region :=
  match f.successors pred with
  | [start] =>
    if f.predecessors start ≠ [pred] then .error (.enteredFromOutside start)
    else
      match f.predecessors succ with
      | [exit] => .ok ⟨key, pred, start, exit, succ⟩
      | found => .error (.predecessors succ found)
  | found => .error (.successors pred found)

/-- The regions of barriers in blocks of their own. Each region begins where the one before
it ended, the first after the block `pred`. -/
def Func.regionsFrom (f : Func) (pred : BlockId) :
    List (InstrId × BlockId) → Except LoweringError (List Region)
  | [] => .ok []
  | (key, succ) :: rest =>
    match f.region pred key succ with
    | .error fault => .error (.malformedRegion f.name key fault)
    | .ok region => (f.regionsFrom succ rest).map (region :: ·)

/-- Isolate the group queries and the barriers of a plan, and read off the regions. -/
def Plan.buildRegions (plan : Plan) : Edit LoweringError (List Region) := do
  let queries ← Edit.lift (Edit.isolate plan.rankQuery plan.anchor "cg.init")
  let homes ← plan.barriers.mapM fun i => Edit.lift (Edit.isolate i i "cg.sync")
  liftExcept ((← get).regionsFrom queries (plan.barriers.zip homes))

end BarrierLowering
