import BarrierLowering.Edit

/-!
# Emitting instructions

Each function of this module appends one instruction to a block, or sets the terminator of
a block. The block is looked up before anything is minted, so that an emission into a
missing block changes nothing.

## Main definitions

* `Emit.push` — append an instruction.
* `Emit.value`, `Emit.effect` — append an operation with a fresh result, or without one.
* `Emit.terminator` — close a block.
-/

namespace BarrierLowering.Emit

/-- Fail unless the block exists. -/
def checkBlock (b : BlockId) : Edit EditError Unit := do
  let _ ← Edit.require (.unknownBlock b) (·.block? b)

/-- Append an instruction to a block. -/
def push (b : BlockId) (result : Option ValueId) (op : Op) (ty : Ty) : Edit EditError InstrId := do
  checkBlock b
  let id ← Edit.freshInstr
  modify (·.mapBlock b fun blk => { blk with instrs := blk.instrs ++ [⟨id, result, op, ty⟩] })
  return id

/-- Append an operation that defines a fresh value. -/
def value (b : BlockId) (op : Op) (ty : Ty) : Edit EditError ValueId := do
  checkBlock b
  let result ← Edit.freshValue
  let _ ← push b (some result) op ty
  return result

/-- Append an operation that defines nothing. -/
def effect (b : BlockId) (op : Op) : Edit EditError InstrId := push b none op .void

/-! ### Constants -/

/-- A constant. -/
def const (b : BlockId) (c : Const) (ty : Ty) : Edit EditError ValueId := value b (.const c) ty

/-- An integer of the given type. -/
def int (b : BlockId) (n : Int) (ty : Ty) : Edit EditError ValueId := const b (.int n ty) ty

/-- An integer of 32 bits. -/
def i32 (b : BlockId) (n : Int) : Edit EditError ValueId := int b n .i32

/-- A truth value. -/
def bool (b : BlockId) (c : Bool) : Edit EditError ValueId := const b (.bool c) .bool

/-! ### Operators -/

/-- A binary operation; a comparison gives a truth value, whatever type is asked for. -/
def binary (b : BlockId) (op : BinOp) (left right : ValueId) (ty : Ty) : Edit EditError ValueId :=
  value b (.binary op left right) (if op.isComparison then .bool else ty)

/-- An integer addition. -/
def add (b : BlockId) (left right : ValueId) (ty : Ty) : Edit EditError ValueId :=
  binary b .add left right ty

/-- A bitwise conjunction. -/
def and (b : BlockId) (left right : ValueId) (ty : Ty) : Edit EditError ValueId :=
  binary b .and left right ty

/-- A test for equality. -/
def eq (b : BlockId) (left right : ValueId) : Edit EditError ValueId :=
  binary b .eq left right .bool

/-- A signed test for less. -/
def slt (b : BlockId) (left right : ValueId) : Edit EditError ValueId :=
  binary b .slt left right .bool

/-- An unsigned test for greater or equal. -/
def uge (b : BlockId) (left right : ValueId) : Edit EditError ValueId :=
  binary b .uge left right .bool

/-! ### Calls, memory, casts and phi nodes -/

/-- A direct call that gives a value. -/
def call (b : BlockId) (callee : String) (args : List ValueId) (ty : Ty) :
    Edit EditError ValueId := value b (.call callee args) ty

/-- A direct call that gives nothing. -/
def callVoid (b : BlockId) (callee : String) (args : List ValueId) : Edit EditError InstrId :=
  effect b (.call callee args)

/-- A load from memory. -/
def load (b : BlockId) (ptr : ValueId) (ty : Ty) : Edit EditError ValueId := value b (.load ptr) ty

/-- A store to memory. -/
def store (b : BlockId) (ptr v : ValueId) : Edit EditError InstrId := effect b (.store ptr v)

/-- A slot on the stack; the result points to it. -/
def alloca (b : BlockId) (ty : Ty) : Edit EditError ValueId := value b (.alloca ty) (.ptr ty)

/-- The address of an array element of the given type. -/
def elementPtr (b : BlockId) (base index : ValueId) (element : Ty) : Edit EditError ValueId :=
  value b (.elementPtr base index) (.ptr element)

/-- A conversion to another type. -/
def cast (b : BlockId) (v : ValueId) (target : Ty) : Edit EditError ValueId :=
  value b (.cast v target) target

/-- A phi node. -/
def phi (b : BlockId) (incoming : List (BlockId × ValueId)) (ty : Ty) : Edit EditError ValueId :=
  value b (.phi incoming) ty

/-! ### Terminators -/

/-- Close a block. -/
def terminator (b : BlockId) (t : Terminator) : Edit EditError Unit := do
  checkBlock b
  modify (·.mapBlock b fun blk => { blk with term := t })

/-- Close a block with a return. -/
def ret (b : BlockId) (v : Option ValueId) : Edit EditError Unit := terminator b (.ret v)

/-- Close a block with a branch. -/
def branch (b target : BlockId) : Edit EditError Unit := terminator b (.branch target)

/-- Close a block with a branch on a truth value. -/
def condBranch (b : BlockId) (condition : ValueId) (onTrue onFalse : BlockId) :
    Edit EditError Unit := terminator b (.condBranch condition onTrue onFalse)

/-- Close a block with a branch on an integer. -/
def switch (b : BlockId) (v : ValueId) (otherwise : BlockId) (cases : List (Int × BlockId)) :
    Edit EditError Unit := terminator b (.switch v otherwise cases)

end BarrierLowering.Emit
