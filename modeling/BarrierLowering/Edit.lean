import BarrierLowering.Func

/-!
# Edits of a function

An edit reads and changes one function. It may fail, and what it changed before it failed
stays changed: work that is abandoned half way leaves its first half behind.

## Main definitions

* `Edit` — the edits, with their errors.
* `EditError` — why an edit of this module fails, with its text.
* `Edit.freshBlock`, `Edit.freshValue`, `Edit.freshInstr` — new identifiers.
* `Edit.createBlock`, `Edit.addParam` — additions that cannot fail.
* `Edit.split`, `Edit.splitLabeled` — move the first instructions of a block to a new block.
* `Edit.addIncoming`, `Edit.remove` — change or take away an instruction.
-/

namespace BarrierLowering

/-- Why an edit failed. -/
inductive EditError
  | unknownBlock (block : BlockId)
  | unknownInstr (instr : InstrId)
  | unknownValue (value : ValueId)
  | notAPhi (value : ValueId)
  | splitOutOfRange (block : BlockId) (index length : Nat)
  | splitInPhis (block : BlockId) (index : Nat)
  deriving DecidableEq

/-- The text of an error. -/
def EditError.text : EditError → String
  | .unknownBlock block => "unknown block " ++ block.text
  | .unknownInstr instr => "unknown instruction " ++ instr.text
  | .unknownValue value => "value " ++ value.text ++ " is not defined by any instruction"
  | .notAPhi value => "value " ++ value.text ++ " is not a phi node"
  | .splitOutOfRange block index length =>
    "split index " ++ toString index ++ " is out of range for " ++ block.text ++ " (" ++
      toString length ++ " instructions)"
  | .splitInPhis block index =>
    "cannot split " ++ block.text ++ " at " ++ toString index ++
      ": index falls inside the leading phi group"

/-- An edit of a function, with errors `ε` and result `α`. -/
abbrev Edit (ε α : Type) := ExceptT ε (StateM Func) α

namespace Edit

variable {ε : Type}

/-- The outcome of an edit of `f`, and what it made of `f`. -/
def apply {α : Type} (e : Edit ε α) (f : Func) : Except ε α × Func := (ExceptT.run e).run f

/-- The result of a lookup in the function, or an error. -/
def require {α : Type} (error : ε) (lookup : Func → Option α) : Edit ε α := do
  match lookup (← get) with
  | some a => return a
  | none => throw error

/-! ### Applying an edit -/

section Apply

variable {α β : Type}

@[simp] theorem apply_pure (a : α) (f : Func) : (pure a : Edit ε α).apply f = (.ok a, f) := rfl

@[simp] theorem apply_throw (e : ε) (f : Func) :
    (throw e : Edit ε α).apply f = (.error e, f) := rfl

@[simp] theorem apply_get (f : Func) : (get : Edit ε Func).apply f = (.ok f, f) := rfl

@[simp] theorem apply_modify (change : Func → Func) (f : Func) :
    (modify change : Edit ε Unit).apply f = (.ok (), change f) := rfl

@[simp] theorem apply_modifyGet (change : Func → α × Func) (f : Func) :
    (modifyGet change : Edit ε α).apply f = (.ok (change f).1, (change f).2) := rfl

/-- Of two edits in a row, the second starts where the first one ended. -/
theorem apply_bind (e : Edit ε α) (k : α → Edit ε β) (f : Func) :
    (e >>= k).apply f =
      match e.apply f with
      | (.ok a, f') => (k a).apply f'
      | (.error error, f') => (.error error, f') := by
  show (ExceptT.bindCont k (e.apply f).1) (e.apply f).2 = _
  rcases e.apply f with ⟨_ | _, _⟩ <;> rfl

/-- A lookup changes nothing. -/
theorem apply_require (error : ε) (lookup : Func → Option α) (f : Func) :
    (require error lookup).apply f =
      match lookup f with
      | some a => (.ok a, f)
      | none => (.error error, f) := by
  rw [require, apply_bind, apply_get]
  show (match lookup f with
    | some a => (pure a : Edit ε α)
    | none => throw error).apply f = _
  cases lookup f <;> rfl

end Apply

/-! ### Fresh identifiers -/

/-- A block identifier that was not minted before. -/
def freshBlock : Edit ε BlockId :=
  modifyGet fun f => (⟨f.next.block⟩, { f with next.block := f.next.block + 1 })

/-- A value identifier that was not minted before. -/
def freshValue : Edit ε ValueId :=
  modifyGet fun f => (⟨f.next.value⟩, { f with next.value := f.next.value + 1 })

/-- An instruction identifier that was not minted before. -/
def freshInstr : Edit ε InstrId :=
  modifyGet fun f => (⟨f.next.instr⟩, { f with next.instr := f.next.instr + 1 })

/-! ### Additions -/

/-- Append an empty block. -/
def createBlock (label : String) : Edit ε BlockId := do
  let b ← freshBlock
  modify fun f => { f with blocks := f.blocks ++ [Block.empty b label] }
  return b

/-- Append a parameter; the result is the value bound to it. -/
def addParam (name : String) (ty : Ty) : Edit ε ValueId := do
  let v ← freshValue
  modify fun f => { f with params := f.params ++ [⟨v, name, ty⟩] }
  return v

end Edit

/-! ### Changes of the first match -/

/-- Change the first member of a list that passes a test. -/
def mapFirst {α : Type} (p : α → Bool) (change : α → α) : List α → List α
  | [] => []
  | a :: as => if p a then change a :: as else a :: mapFirst p change as

/-- Change the block with the given identifier. -/
def Func.mapBlock (f : Func) (b : BlockId) (change : Block → Block) : Func :=
  { f with blocks := mapFirst (fun blk => blk.id = b) change f.blocks }

/-- Change the instruction that defines a value. -/
def Func.mapDefinition (f : Func) (v : ValueId) (change : Instr → Instr) : Func :=
  let defines := fun i : Instr => decide (i.result = some v)
  let changeIn := fun blk : Block => { blk with instrs := mapFirst defines change blk.instrs }
  { f with blocks := mapFirst (fun blk => blk.instrs.any defines) changeIn f.blocks }

/-! ### Splitting a block -/

/-- Cut the block with identifier `b` in two at `index`. The first part becomes the block
`fresh`, directly in front, and branches to the second, which stays `b`. -/
def cutBlock (b : BlockId) (index : Nat) (fresh : BlockId) (label : String) :
    List Block → List Block
  | [] => []
  | blk :: rest =>
    if blk.id = b then
      ⟨fresh, label, blk.instrs.take index, .branch b⟩ ::
        { blk with instrs := blk.instrs.drop index } :: rest
    else blk :: cutBlock b index fresh label rest

/-- Send every edge to `old` to `new`. -/
def Func.retarget (f : Func) (old new : BlockId) : Func :=
  { f with blocks := f.blocks.map fun blk => { blk with term := blk.term.retarget old new } }

namespace Edit

/-- Move the instructions of `b` before `index` to a new block in front of it, and send the
edges that went to `b` to the new block. Phi nodes move first: the cut cannot be among
them. The new block is the entry if `b` was. -/
def splitLabeled (b : BlockId) (index : Nat) (label : String) : Edit EditError BlockId := do
  let blk ← require (.unknownBlock b) (·.block? b)
  if blk.instrs.length < index then
    throw (.splitOutOfRange b index blk.instrs.length)
  if index < blk.phiCount then
    throw (.splitInPhis b index)
  let fresh ← freshBlock
  modify (·.retarget b fresh)
  modify fun f => { f with blocks := cutBlock b index fresh label f.blocks }
  return fresh

/-- Split a block; the new block takes its label, marked as split off. -/
def split (b : BlockId) (index : Nat) : Edit EditError BlockId := do
  let blk ← require (.unknownBlock b) (·.block? b)
  splitLabeled b index (blk.label ++ ".split")

/-! ### Single instructions -/

/-- Append an incoming edge to the phi node that defines `phi`. -/
def addIncoming (phi : ValueId) (source : BlockId) (value : ValueId) : Edit EditError Unit := do
  let i ← require (.unknownValue phi) (·.definition? phi)
  match i.op with
  | .phi incoming =>
    modify (·.mapDefinition phi fun i => { i with op := .phi (incoming ++ [(source, value)]) })
  | _ => throw (.notAPhi phi)

/-- Remove an instruction. It is taken from the first block that has the identifier of the
block it was found in. Where blocks share an identifier, that block may be too short to have an
instruction at this index; the program breaks off there, and `unknownInstr` stands for this. -/
def remove (instr : InstrId) : Edit EditError Instr := do
  let (b, index) ← require (.unknownInstr instr) (·.locate? instr)
  let i ← require (.unknownInstr instr) fun f => (f.block? b).bind fun blk => blk.instrs[index]?
  modify (·.mapBlock b fun blk => { blk with instrs := blk.instrs.eraseIdx index })
  return i

end Edit

end BarrierLowering
