import BarrierLowering.Survey

/-!
# Stages of a kernel

The loop that is built around the code before a barrier can pass that code by. So a value
that is defined there must not be read after the barrier. To see whether one is, every
point of the kernel gets a stage: 0 up to the group queries, `2 k - 1` before barrier `k`,
`2 k` at barrier `k`, and so on up to `2 n + 1` after the last of `n` barriers. What is
defined at an even stage runs on the way to every later stage.

## Main definitions

* `BarrierOrder` — the barriers in order, and where the first stage starts.
* `BarrierOrder.stageOf`, `BarrierOrder.stageAfter` — stages at and after an instruction.
* `Func.startStages` — the stage at which each reachable block starts.
* `Func.crossing?` — the first value that is read across a barrier.
-/

namespace BarrierLowering

/-- The barriers of a kernel in the order in which they run, and the last group query. -/
structure BarrierOrder where
  anchor : InstrId
  barriers : List InstrId

namespace BarrierOrder

/-- The number of a barrier, counted from one. -/
def number? (o : BarrierOrder) (i : InstrId) : Option Nat :=
  (o.barriers.zipIdx 1).reverse.lookup i

/-- The stage of an instruction that follows code at stage `s`. -/
def stageOf (o : BarrierOrder) (s : Nat) (i : Instr) : Nat :=
  match o.number? i.id with
  | some k => 2 * k
  | none => s

/-- The stage of the code after that instruction. -/
def stageAfter (o : BarrierOrder) (s : Nat) (i : Instr) : Nat :=
  match o.number? i.id with
  | some k => 2 * k + 1
  | none => if i.id = o.anchor then 1 else s

/-- The instructions of a block that starts at stage `s`, each with its stage. -/
def staged (o : BarrierOrder) (s : Nat) : List Instr → List (Instr × Nat)
  | [] => []
  | i :: is => (i, o.stageOf s i) :: o.staged (o.stageAfter s i) is

/-- The stage at the end of a block that starts at stage `s`. -/
def endStage (o : BarrierOrder) (s : Nat) (instrs : List Instr) : Nat :=
  instrs.foldl o.stageAfter s

/-- The values a block defines, each with the stage of its definition. -/
def definitions (o : BarrierOrder) (s : Nat) (blk : Block) : List (ValueId × Nat) :=
  (o.staged s blk.instrs).filterMap fun (i, stage) => i.result.map fun v => (v, stage)

/-- The values a block reads outside its phi nodes, each with the stage at which it does. -/
def uses (o : BarrierOrder) (s : Nat) (blk : Block) : List (ValueId × Nat) :=
  ((o.staged s blk.instrs).flatMap fun (i, stage) =>
    if i.isPhi then [] else i.op.operands.map fun v => (v, stage)) ++
    blk.term.operands.map fun v => (v, o.endStage s blk.instrs)

/-- The values the phi nodes of a block read, each with the block it comes from. -/
def phiUses (blk : Block) : List (ValueId × BlockId) :=
  blk.instrs.flatMap fun i =>
    match i.op with
    | .phi incoming => incoming.map fun (source, v) => (v, source)
    | _ => []

end BarrierOrder

namespace Func

/-- The stage at the end of block `b` if it starts at stage `s`. -/
def endStage (f : Func) (o : BarrierOrder) (b : BlockId) (s : Nat) : Nat :=
  match f.block? b with
  | some blk => o.endStage s blk.instrs
  | none => s

/-- The reachable blocks, each with the stage at which it starts: zero for the entry, and
the stage at the end of the block that found it first for the others. -/
def startStages (f : Func) (o : BarrierOrder) : List (BlockId × Nat) :=
  f.graph.spread (f.endStage o) [] (f.entryId?.toList.map fun b => (b, 0))

/-- The values that are read, each with the stage at which it is. A phi node reads at the
end of the block that the value comes from, if that is reachable. -/
def stagedUses (f : Func) (o : BarrierOrder) : List (ValueId × Nat) :=
  let starts := f.startStages o
  let blocks := starts.filterMap fun (b, s) => (f.block? b).map fun blk => (blk, s)
  let phiUses := blocks.flatMap fun (blk, _) => BarrierOrder.phiUses blk
  (blocks.flatMap fun (blk, s) => o.uses s blk) ++
    phiUses.filterMap fun (v, source) =>
      (starts.lookup source).map fun s => (v, f.endStage o source s)

/-- The values that are defined in reachable blocks, each with the stage at which it is. -/
def stagedDefinitions (f : Func) (o : BarrierOrder) : List (ValueId × Nat) :=
  (f.startStages o).flatMap fun (b, s) =>
    match f.block? b with
    | some blk => o.definitions s blk
    | none => []

/-- The first value that is read outside the odd stage that defines it, and the barrier
that closes that stage. -/
def crossing? (f : Func) (o : BarrierOrder) : Option (ValueId × InstrId) :=
  let definitions := (f.stagedDefinitions o).reverse
  (f.stagedUses o).findSome? fun (v, used) =>
    match definitions.lookup v with
    | some defined =>
      if defined % 2 = 1 ∧ defined ≠ used then
        o.barriers[defined / 2]?.map fun barrier => (v, barrier)
      else none
    | none => none

end Func

end BarrierLowering
