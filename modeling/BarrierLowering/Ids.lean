/-!
# Identifiers

Blocks, values and instructions are addressed by numbers that stay the same while the
graph around them is edited. The three kinds are separate types, so that one cannot be
used where another is meant.

## Main definitions

* `BlockId`, `ValueId`, `InstrId` — the three kinds of identifier.
* `BlockId.text`, `ValueId.text`, `InstrId.text` — how a listing writes them.
* `BlockId.listText` — how a diagnostic writes a list of blocks.
-/

namespace BarrierLowering

/-- Addresses a basic block. -/
structure BlockId where
  /-- The number of the block. -/
  index : Nat
  deriving DecidableEq

/-- Addresses a value: a parameter or the result of an instruction. -/
structure ValueId where
  /-- The number of the value. -/
  index : Nat
  deriving DecidableEq

/-- Addresses an instruction; splitting a block does not change it. -/
structure InstrId where
  /-- The number of the instruction. -/
  index : Nat
  deriving DecidableEq

/-! ### Written forms -/

/-- A block is written as its number after `bb`. -/
def BlockId.text (b : BlockId) : String := "bb" ++ toString b.index

/-- A value is written as its number after a percent sign. -/
def ValueId.text (v : ValueId) : String := "%" ++ toString v.index

/-- An instruction is written as its number after a number sign. -/
def InstrId.text (i : InstrId) : String := "#" ++ toString i.index

/-- A list of blocks in a diagnostic: in brackets, each spelled out. -/
def BlockId.listText (bs : List BlockId) : String :=
  "[" ++ ", ".intercalate (bs.map fun b => "BlockId(" ++ toString b.index ++ ")") ++ "]"

/-- The same blocks in ascending order. -/
def BlockId.sort (bs : List BlockId) : List BlockId :=
  bs.mergeSort fun a b => a.index ≤ b.index

end BarrierLowering
