import BarrierLowering.Block

/-!
# Functions and programs

A function is a list of blocks of which the first is the entry, with the counters that
mint fresh identifiers. Identifiers may repeat in a malformed function; every lookup then
finds the first in block order.

## Main definitions

* `Func`, `Program` — device functions and the program that holds them.
* `Func.block?`, `Func.instr?`, `Func.definition?`, `Func.locate?` — lookups by identifier.
* `Func.successors`, `Func.predecessors` — the edges of the control flow.
* `Func.emptyKernel` — a kernel without blocks.
-/

namespace BarrierLowering

/-- How a function is called. -/
inductive Convention
  /-- An entry point, launched by the device. -/
  | kernel
  /-- An ordinary device function. -/
  | device
  deriving DecidableEq

/-- A parameter and the value bound to it. -/
structure Param where
  value : ValueId
  name : String
  ty : Ty
  deriving DecidableEq

/-- The next number of each kind of identifier. -/
structure Counters where
  block : Nat
  value : Nat
  instr : Nat
  deriving DecidableEq

/-- A device function. -/
structure Func where
  name : String
  convention : Convention
  returnTy : Ty
  params : List Param
  /-- The blocks, the entry first. -/
  blocks : List Block
  /-- The identifiers that will be minted next. -/
  next : Counters
  deriving DecidableEq

/-- A program: a named list of device functions. -/
structure Program where
  name : String
  funcs : List Func
  deriving DecidableEq

namespace Func

/-- A function without parameters or blocks. -/
def empty (name : String) (convention : Convention) (returnTy : Ty) : Func :=
  ⟨name, convention, returnTy, [], [], ⟨0, 0, 0⟩⟩

/-- A kernel without parameters or blocks. -/
def emptyKernel (name : String) : Func := empty name .kernel .void

/-- Whether the function is an entry point. -/
def isKernel (f : Func) : Bool := f.convention = .kernel

/-! ### Lookups -/

/-- The entry block. -/
def entry? (f : Func) : Option Block := f.blocks.head?

/-- The identifier of the entry block. -/
def entryId? (f : Func) : Option BlockId := f.entry?.map (·.id)

/-- The identifiers of the blocks, in block order. -/
def blockIds (f : Func) : List BlockId := f.blocks.map (·.id)

/-- The block with the given identifier. -/
def block? (f : Func) (b : BlockId) : Option Block := f.blocks.find? fun blk => blk.id = b

/-- The position of a block in the list of blocks. -/
def blockIndex? (f : Func) (b : BlockId) : Option Nat :=
  f.blocks.findIdx? fun blk => blk.id = b

/-- All instructions, in block order. -/
def instrs (f : Func) : List Instr := f.blocks.flatMap (·.instrs)

/-- The instruction with the given identifier. -/
def instr? (f : Func) (i : InstrId) : Option Instr := f.instrs.find? fun instr => instr.id = i

/-- The instruction that defines a value; parameters have none. -/
def definition? (f : Func) (v : ValueId) : Option Instr :=
  f.instrs.find? fun instr => instr.result = some v

/-- The block that holds an instruction, and the position in that block. -/
def locate? (f : Func) (i : InstrId) : Option (BlockId × Nat) :=
  f.blocks.findSome? fun blk =>
    (blk.instrs.findIdx? fun instr => instr.id = i).map fun index => (blk.id, index)

/-! ### Edges -/

/-- The distinct successors of a block, in the order of its terminator. -/
def successors (f : Func) (b : BlockId) : List BlockId :=
  match f.block? b with
  | some blk => blk.term.targets.eraseDups
  | none => []

/-- The blocks that branch to `b`, in block order. -/
def predecessors (f : Func) (b : BlockId) : List BlockId :=
  (f.blocks.filter fun blk => b ∈ blk.term.targets).map (·.id)

end Func

/-- The function with the given name. -/
def Program.find? (p : Program) (name : String) : Option Func :=
  p.funcs.find? fun f => f.name = name

/-- The program with one more function at its end. -/
def Program.add (p : Program) (f : Func) : Program := { p with funcs := p.funcs ++ [f] }

end BarrierLowering
