import BarrierLowering.Func

/-!
# Listings

The readable text of a program. It is written for people: nothing reads it back.

## Main definitions

* `Instr.text`, `Terminator.text` — one line, without indent.
* `Block.text`, `Func.text`, `Program.text` — whole lines, each closed by a line feed.
-/

namespace BarrierLowering

/-- The texts one after another, with a comma between two of them. -/
def commaSeparated (texts : List String) : String := ", ".intercalate texts

/-- The written form of a convention. -/
def Convention.text : Convention → String
  | .kernel => "spir_kernel"
  | .device => "spir_func"

/-- The written form of a constant; its type is written before it by the instruction. -/
def Const.text : Const → String
  | .bool true => "true"
  | .bool false => "false"
  | .int value _ => toString value

/-- The written form of an operator. -/
def BinOp.text : BinOp → String
  | .add => "add"
  | .sub => "sub"
  | .mul => "mul"
  | .sdiv => "sdiv"
  | .udiv => "udiv"
  | .srem => "srem"
  | .urem => "urem"
  | .fadd => "fadd"
  | .fsub => "fsub"
  | .fmul => "fmul"
  | .fdiv => "fdiv"
  | .and => "and"
  | .or => "or"
  | .xor => "xor"
  | .shl => "shl"
  | .ashr => "ashr"
  | .lshr => "lshr"
  | .eq => "icmp eq"
  | .ne => "icmp ne"
  | .slt => "icmp slt"
  | .sle => "icmp sle"
  | .sgt => "icmp sgt"
  | .sge => "icmp sge"
  | .ult => "icmp ult"
  | .ule => "icmp ule"
  | .ugt => "icmp ugt"
  | .uge => "icmp uge"

/-- The written form of an operation whose result has type `ty`. -/
def Op.text (ty : Ty) : Op → String
  | .const value => "const " ++ ty.text ++ " " ++ value.text
  | .binary op left right => op.text ++ " " ++ left.text ++ ", " ++ right.text
  | .call callee args =>
    "call " ++ ty.text ++ " @" ++ callee ++ "(" ++ commaSeparated (args.map (·.text)) ++ ")"
  | .load ptr => "load " ++ ty.text ++ ", " ++ ptr.text
  | .store ptr value => "store " ++ ptr.text ++ ", " ++ value.text
  | .elementPtr base index => "gep " ++ base.text ++ ", " ++ index.text
  | .alloca slot => "alloca " ++ slot.text
  | .cast value target => "cast " ++ value.text ++ " to " ++ target.text
  | .phi incoming =>
    "phi " ++ ty.text ++ " " ++
      commaSeparated (incoming.map fun (block, value) =>
        "[" ++ value.text ++ ", " ++ block.text ++ "]")

/-- The written form of an instruction: its result first, if it has one. -/
def Instr.text (i : Instr) : String :=
  match i.result with
  | some value => value.text ++ " = " ++ i.op.text i.ty
  | none => i.op.text i.ty

/-- The written form of a terminator. -/
def Terminator.text : Terminator → String
  | .ret none => "ret void"
  | .ret (some value) => "ret " ++ value.text
  | .branch target => "br " ++ target.text
  | .condBranch condition onTrue onFalse =>
    "br " ++ commaSeparated [condition.text, onTrue.text, onFalse.text]
  | .switch value otherwise cases =>
    "switch " ++ value.text ++ ", " ++ otherwise.text ++ " [" ++
      commaSeparated (cases.map fun (case, target) => toString case ++ ": " ++ target.text) ++ "]"
  | .unreachable => "unreachable"

/-- The lines of a block: a heading with its label, then its contents, indented. -/
def Block.text (b : Block) : String :=
  b.id.text ++ ":  ; " ++ b.label ++ "\n" ++
    String.join (b.instrs.map fun i => "  " ++ i.text ++ "\n") ++
    "  " ++ b.term.text ++ "\n"

/-- The lines of a function. -/
def Func.text (f : Func) : String :=
  "define " ++ f.convention.text ++ " " ++ f.returnTy.text ++ " @" ++ f.name ++ "(" ++
    commaSeparated (f.params.map fun p => p.ty.text ++ " " ++ p.value.text) ++ ") \x7b\n" ++
    String.join (f.blocks.map (·.text)) ++ "\x7d\n"

/-- The lines of a program: an empty line before each function. -/
def Program.text (p : Program) : String :=
  "; module " ++ p.name ++ "\n" ++ String.join (p.funcs.map fun f => "\n" ++ f.text)

end BarrierLowering
