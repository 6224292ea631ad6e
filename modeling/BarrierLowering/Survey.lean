import BarrierLowering.Dominance
import BarrierLowering.Plan

/-!
# Barriers along the paths

Every path of a kernel that reaches an exit has to visit all blocks with barriers, and all
paths have to visit them in the same order. A path that ends at a back edge may also have
visited none of them.

## Main definitions

* `BarrierMap`, `Func.barrierMap` — the barriers of each block.
* `Survey`, `Survey.visit` — what is known after some paths, and one more path.
* `Func.survey` — what is known after all paths.
* `Func.pattern` — the control flow around one barrier.
-/

namespace BarrierLowering

/-- The blocks that hold barriers, each with its barriers in order. -/
abbrev BarrierMap := List (BlockId × List InstrId)

/-- The barriers of a block, in order. -/
def Block.barriers (rule : NameRule) (blk : Block) : List InstrId :=
  (blk.instrs.filter fun i => i.kind rule = .barrier).map (·.id)

/-- The barriers of every block, reachable or not. Blocks of one identifier count as one. -/
def Func.barrierMap (rule : NameRule) (f : Func) : BarrierMap :=
  let homes := (f.blocks.filter fun blk => blk.barriers rule ≠ []).map (·.id)
  homes.eraseDups.map fun b =>
    (b, (f.blocks.filter fun blk => blk.id = b).flatMap (·.barriers rule))

namespace BarrierMap

/-- Whether a block holds barriers. -/
def holds (m : BarrierMap) (b : BlockId) : Bool := (m.lookup b).isSome

/-- The barriers of a block. -/
def barriersOf (m : BarrierMap) (b : BlockId) : List InstrId := (m.lookup b).getD []

end BarrierMap

/-- What is known about the barriers of a kernel after some of its paths. -/
structure Survey where
  /-- The barriers in the order of the first path that runs them. -/
  order : Option (List InstrId)
  /-- The number of paths that reached an exit. -/
  exitPaths : Nat
  /-- The blocks with barriers on those paths, one entry for each visit. -/
  exitVisits : List BlockId
  /-- The number of paths. -/
  examined : Nat
  deriving DecidableEq

namespace Survey

/-- Nothing is known before the first path. -/
def start : Survey := ⟨none, 0, [], 0⟩

/-- Count a path and the blocks with barriers that it visits. -/
def count (s : Survey) (path : Path BlockId) (visited : List BlockId) : Survey :=
  if path.isExit then
    { s with
      examined := s.examined + 1
      exitPaths := s.exitPaths + 1
      exitVisits := visited ++ s.exitVisits }
  else { s with examined := s.examined + 1 }

/-- Look at one more path. -/
def visit (m : BarrierMap) : Visitor BlockId Survey Rejection := fun s path =>
  let visited := path.nodes.filter m.holds
  let s := s.count path visited
  if visited.length < m.length && (path.isExit || !visited.isEmpty) then
    (s, some (.partialVisit path.id visited.length m.length))
  else if visited.isEmpty then (s, none)
  else
    let order := visited.flatMap m.barriersOf
    match s.order with
    | none => ({ s with order := some order }, none)
    | some first => (s, if order = first then none else some (.orderMismatch path.id))

end Survey

namespace Func

/-- Look at all paths. The order in which they run the barriers comes with the survey. -/
def survey (f : Func) (maxPaths : Nat) (m : BarrierMap) :
    Except Rejection (List InstrId × Survey) :=
  match f.graph.visitPaths maxPaths (Survey.visit m) Survey.start with
  | (_, .overLimit) => .error (.tooManyPaths maxPaths)
  | (_, .broken reason) => .error reason
  | (s, .complete) =>
    match s.order with
    | none => .error .noBarrierPath
    | some order => .ok (order, s)

/-- The control flow around a barrier, once all paths were looked at. -/
def pattern (f : Func) (order : List InstrId) (s : Survey) (block : BlockId) (barrier : InstrId) :
    Pattern :=
  if f.graph.onCycle block then .inLoop
  else if s.exitVisits.count block < s.exitPaths then .inBranch
  else if barrier ∉ order then .unsupported
  else .simple

/-- One record for each barrier, in block order. -/
def barrierRecords (f : Func) (m : BarrierMap) (order : List InstrId) (s : Survey) :
    List BarrierRecord :=
  f.blockIds.flatMap fun b => (m.barriersOf b).map fun i => ⟨i, b, f.pattern order s b i⟩

end Func

end BarrierLowering
