import BarrierLowering.Dominance

/-!
# Defects of a function

A function is well formed when its references resolve, its phi nodes agree with the edges
into their block, each value is defined once, and each definition dominates its uses. The
types of values are not checked.

## Main definitions

* `Defect` — one way in which a function is not well formed, with its text.
* `Func.defects` — all of them, in a fixed order.
* `Func.verify`, `Program.verify` — success, or the defects of a function.
-/

namespace BarrierLowering

/-- A way in which a function is not well formed. -/
inductive Defect
  /-- The function has no blocks. -/
  | noBlocks
  /-- Another block before it has this identifier. -/
  | duplicateBlock (block : BlockId)
  /-- A terminator branches to a block that does not exist. -/
  | unknownTarget (source target : BlockId)
  /-- A phi node comes after another instruction. -/
  | misplacedPhi (block : BlockId) (instr : InstrId)
  /-- The blocks a phi node names are not the predecessors of its block. -/
  | phiMismatch (block : BlockId) (instr : InstrId) (incoming preds : List BlockId)
  /-- The value has a definition already. -/
  | duplicateDefinition (value : ValueId)
  /-- A value is read that has no definition. -/
  | undefinedValue (block : BlockId) (value : ValueId)
  /-- A value is read where its definition may not have run. -/
  | notDominated (block : BlockId) (value : ValueId)
  deriving DecidableEq

/-- The text of a defect. -/
def Defect.text : Defect → String
  | .noBlocks => "function has no blocks"
  | .duplicateBlock block => "block id " ++ block.text ++ " is used by more than one block"
  | .unknownTarget source target => source.text ++ " branches to missing block " ++ target.text
  | .misplacedPhi block instr =>
    "phi " ++ instr.text ++ " in " ++ block.text ++ " follows a non-phi instruction"
  | .phiMismatch block instr incoming preds =>
    "phi " ++ instr.text ++ " in " ++ block.text ++ " has incoming " ++
      BlockId.listText incoming ++ ", predecessors are " ++ BlockId.listText preds
  | .duplicateDefinition value => value.text ++ " is defined more than once"
  | .undefinedValue block value => value.text ++ " used in " ++ block.text ++ " is never defined"
  | .notDominated block value =>
    "definition of " ++ value.text ++ " does not dominate its use in " ++ block.text

/-- A function that is not well formed, with its defects. -/
structure InvalidFunc where
  name : String
  defects : List Defect
  deriving DecidableEq

/-- The message about an invalid function. -/
def InvalidFunc.text (e : InvalidFunc) : String :=
  "function `" ++ e.name ++ "` failed verification (" ++ toString e.defects.length ++ " issue(s))"

/-- The members of a list that occur earlier in it or in `seen`. -/
def repeats {α : Type} [DecidableEq α] (seen : List α) : List α → List α
  | [] => []
  | a :: as => if a ∈ seen then a :: repeats seen as else repeats (a :: seen) as

namespace Func

/-! ### Blocks and edges -/

/-- The block identifiers that are used again. -/
def duplicateBlocks (f : Func) : List Defect := (repeats [] f.blockIds).map .duplicateBlock

/-- The edges that lead nowhere. -/
def unknownTargets (f : Func) : List Defect :=
  f.blocks.flatMap fun blk =>
    (blk.term.targets.filter fun target => target ∉ f.blockIds).map (.unknownTarget blk.id)

/-! ### Definitions -/

/-- The results of the instructions, in block order. -/
def results (f : Func) : List ValueId := f.instrs.filterMap (·.result)

/-- The values bound to the parameters. -/
def paramValues (f : Func) : List ValueId := f.params.map (·.value)

/-- The results that have a definition already. -/
def duplicateDefinitions (f : Func) : List Defect :=
  (repeats f.paramValues f.results).map .duplicateDefinition

/-- The block that holds the first definition of a value, and the position in it. -/
def defSite? (f : Func) (v : ValueId) : Option (BlockId × Nat) :=
  f.blocks.findSome? fun blk =>
    (blk.instrs.findIdx? fun i => i.result = some v).map fun index => (blk.id, index)

/-! ### Dominated uses -/

/-- Whether the definition of `v` runs before position `pos` of block `b` is reached; no
position stands for the end of the block. A value that no instruction defines passes. -/
def definedBefore (f : Func) (doms : DomTable BlockId) (v : ValueId) (b : BlockId)
    (pos : Option Nat) : Bool :=
  match f.defSite? v with
  | none => true
  | some (home, index) => if home = b then pos.all fun p => index < p else doms.dominates home b

/-- The uses of the instruction at position `pos` of block `b` that come too early. A phi
node reads an operand at the end of the block it belongs to. -/
def earlyUses (f : Func) (doms : DomTable BlockId) (b : BlockId) (i : Instr) (pos : Nat) :
    List Defect :=
  match i.op with
  | .phi incoming =>
    (incoming.filter fun (source, v) => !f.definedBefore doms v source none).map
      fun (source, v) => .notDominated source v
  | op => (op.operands.filter fun v => !f.definedBefore doms v b (some pos)).map (.notDominated b)

/-- The uses in the reachable blocks that their definition does not dominate. -/
def dominanceDefects (f : Func) : List Defect :=
  let doms := f.dominators
  (f.blocks.filter fun blk => doms.isReachable blk.id).flatMap fun blk =>
    (blk.instrs.zipIdx.flatMap fun (i, pos) => f.earlyUses doms blk.id i pos) ++
      (blk.term.operands.filter fun v => !f.definedBefore doms v blk.id none).map
        (.notDominated blk.id)

/-! ### Phi nodes and operands -/

/-- The operands without any definition. -/
def undefinedOperands (defined : List ValueId) (b : BlockId) (operands : List ValueId) :
    List Defect :=
  (operands.filter fun v => v ∉ defined).map (.undefinedValue b)

/-- What is wrong with a phi node: its place, or the blocks it names. -/
def phiDefects (preds : List BlockId) (phiCount : Nat) (b : BlockId) (i : Instr) (pos : Nat) :
    List Defect :=
  match i.op with
  | .phi incoming =>
    let sources := BlockId.sort (incoming.map (·.1))
    (if phiCount ≤ pos then [.misplacedPhi b i.id] else []) ++
      (if sources ≠ preds then [.phiMismatch b i.id sources preds] else [])
  | _ => []

/-- What is wrong inside a block, apart from dominance. -/
def blockDefects (f : Func) (blk : Block) : List Defect :=
  let preds := BlockId.sort (f.predecessors blk.id).eraseDups
  let defined := f.paramValues ++ f.results
  (blk.instrs.zipIdx.flatMap fun (i, pos) =>
    phiDefects preds blk.phiCount blk.id i pos ++ undefinedOperands defined blk.id i.op.operands) ++
    undefinedOperands defined blk.id blk.term.operands

/-! ### The whole check -/

/-- Every defect of a function. -/
def defects (f : Func) : List Defect :=
  if f.blocks.isEmpty then [.noBlocks]
  else
    f.duplicateBlocks ++ f.unknownTargets ++ f.duplicateDefinitions ++ f.dominanceDefects ++
      f.blocks.flatMap f.blockDefects

/-- Succeed on a function without defects. -/
def verify (f : Func) : Except InvalidFunc Unit :=
  let defects := f.defects
  if defects.isEmpty then .ok () else .error ⟨f.name, defects⟩

end Func

/-- Succeed on a program whose functions have no defects; else name the first that has. -/
def Program.verify (p : Program) : Except InvalidFunc Unit := p.funcs.forM (·.verify)

end BarrierLowering
