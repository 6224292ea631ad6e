import BarrierLowering.Ids
import BarrierLowering.Ty

/-!
# Instructions

An instruction names an operation, the values it reads and, if it has one, the value it
defines. A function is in static single assignment form when each value has one
definition; a phi node selects a value by the block that control came from.

## Main definitions

* `Const`, `BinOp`, `Op`, `Instr` — constants, binary operators, operations, instructions.
* `Op.operands` — the values an operation reads, in operand order.
* `Instr.callee`, `Instr.isPhi` — what the analyses ask of an instruction.
-/

namespace BarrierLowering

/-- A constant. -/
inductive Const
  | bool (value : Bool)
  | int (value : Int) (ty : Ty)
  deriving DecidableEq

/-- A binary operator. -/
inductive BinOp
  | add | sub | mul | sdiv | udiv | srem | urem
  | fadd | fsub | fmul | fdiv
  | and | or | xor | shl | ashr | lshr
  | eq | ne | slt | sle | sgt | sge | ult | ule | ugt | uge
  deriving DecidableEq

/-- The operators that compare two integers. -/
def BinOp.isComparison : BinOp → Bool
  | .eq | .ne | .slt | .sle | .sgt | .sge | .ult | .ule | .ugt | .uge => true
  | _ => false

/-- An operation. -/
inductive Op
  | const (value : Const)
  | binary (op : BinOp) (left right : ValueId)
  /-- A direct call of a function known by name. -/
  | call (callee : String) (args : List ValueId)
  | load (ptr : ValueId)
  | store (ptr value : ValueId)
  /-- The address of an array element. -/
  | elementPtr (base index : ValueId)
  /-- A slot on the stack. -/
  | alloca (ty : Ty)
  | cast (value : ValueId) (target : Ty)
  /-- The value that belongs to the block control came from. -/
  | phi (incoming : List (BlockId × ValueId))
  deriving DecidableEq

/-- The values an operation reads. -/
def Op.operands : Op → List ValueId
  | .const _ | .alloca _ => []
  | .binary _ left right => [left, right]
  | .call _ args => args
  | .load ptr => [ptr]
  | .store ptr value => [ptr, value]
  | .elementPtr base index => [base, index]
  | .cast value _ => [value]
  | .phi incoming => incoming.map (·.2)

/-- An instruction. -/
structure Instr where
  id : InstrId
  /-- The value the instruction defines, if any. -/
  result : Option ValueId
  op : Op
  /-- The type of the result. -/
  ty : Ty
  deriving DecidableEq

/-- The function a direct call names. -/
def Instr.callee (i : Instr) : Option String :=
  match i.op with
  | .call callee _ => some callee
  | _ => none

/-- Whether the instruction is a phi node. -/
def Instr.isPhi (i : Instr) : Bool :=
  match i.op with
  | .phi _ => true
  | _ => false

end BarrierLowering
