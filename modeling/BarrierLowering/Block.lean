import BarrierLowering.Instr

/-!
# Basic blocks

A block is a list of instructions that run one after another, closed by a terminator that
says where control goes.

## Main definitions

* `Terminator`, `Block` — the two halves of a block.
* `Terminator.targets` — the blocks a terminator branches to, repeats kept.
* `Terminator.retarget` — sends the edges to one block to another.
* `Block.phiCount` — the length of the group of phi nodes a block opens with.
-/

namespace BarrierLowering

/-- What ends a block. -/
inductive Terminator
  /-- Return from the function, with a value or without. -/
  | ret (value : Option ValueId)
  | branch (target : BlockId)
  | condBranch (condition : ValueId) (onTrue onFalse : BlockId)
  /-- Branch to the block of the first case that equals the value, else to `otherwise`. -/
  | switch (value : ValueId) (otherwise : BlockId) (cases : List (Int × BlockId))
  | unreachable
  deriving DecidableEq

namespace Terminator

/-- The blocks a terminator branches to, in operand order; one may occur more than once. -/
def targets : Terminator → List BlockId
  | .ret _ | .unreachable => []
  | .branch target => [target]
  | .condBranch _ onTrue onFalse => [onTrue, onFalse]
  | .switch _ otherwise cases => otherwise :: cases.map (·.2)

/-- The values a terminator reads. -/
def operands : Terminator → List ValueId
  | .ret (some value) => [value]
  | .condBranch condition _ _ => [condition]
  | .switch value _ _ => [value]
  | .ret none | .branch _ | .unreachable => []

/-- Rename the targets of a terminator. -/
def mapTargets (r : BlockId → BlockId) : Terminator → Terminator
  | .ret value => .ret value
  | .branch target => .branch (r target)
  | .condBranch condition onTrue onFalse => .condBranch condition (r onTrue) (r onFalse)
  | .switch value otherwise cases =>
    .switch value (r otherwise) (cases.map fun (case, target) => (case, r target))
  | .unreachable => .unreachable

/-- Send every edge that went to `old` to `new`. -/
def retarget (old new : BlockId) (t : Terminator) : Terminator :=
  t.mapTargets fun target => if target = old then new else target

end Terminator

/-- A basic block. -/
structure Block where
  id : BlockId
  label : String
  instrs : List Instr
  term : Terminator
  deriving DecidableEq

/-- A block without instructions that control must not reach the end of. -/
def Block.empty (id : BlockId) (label : String) : Block := ⟨id, label, [], .unreachable⟩

/-- The number of phi nodes at the top of a block. -/
def Block.phiCount (b : Block) : Nat := (b.instrs.takeWhile (·.isPhi)).length

end BarrierLowering
