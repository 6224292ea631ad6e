import BarrierLowering.Instr

/-!
# The meaning of a call

A device function asks for its rank in the group, for the size of the group, and to wait
for the rest of the group by calling functions with certain names. Two rules say which
names these are. The arguments of a call do not matter.

## Main definitions

* `CallKind`, `NameRule` — what a call can mean, and the rules that decide it.
* `CallKind.ofIntrinsic` — by the names of the device library.
* `CallKind.ofKeyword` — by the keywords a name contains.
* `CallKind.ofName`, `Instr.kind` — by either rule.
-/

namespace BarrierLowering

/-- What a call means to the lowering. -/
inductive CallKind
  /-- It asks for the rank of the thread in its group. -/
  | threadRank
  /-- It asks for the size of the group. -/
  | groupSize
  /-- It waits for all threads of the group. -/
  | barrier
  | other
  deriving DecidableEq

/-- How the name of a function tells what a call of it means. -/
inductive NameRule
  /-- The names of the device library count. -/
  | intrinsics
  /-- Keywords count, wherever they stand after the first byte of the name. -/
  | substring
  deriving DecidableEq

/-! ### Names of the device library -/

/-- What follows a word in a text that begins with it. -/
def restAfter (word : List Char) (text : List Char) : Option (List Char) :=
  if word.isPrefixOf text then some (text.drop word.length) else none

/-- How the mangled name of a member of the group namespace begins, for a plain member
function and for a constant one. -/
def memberHeads : List (List Char) :=
  ["_ZN18cooperative_groups".toList, "_ZNK18cooperative_groups".toList]

/-- The kinds of the member functions without parameters, by how their mangled name ends. -/
def memberKind (rest : List Char) : CallKind :=
  if "11thread_rankEv".toList.isSuffixOf rest then .threadRank
  else if "4sizeEv".toList.isSuffixOf rest then .groupSize
  else if "4syncEv".toList.isSuffixOf rest then .barrier
  else .other

namespace CallKind

/-- The kind of a function of the device library: a plain entry point, or the mangled name
of a member of the group namespace. -/
def ofIntrinsic (name : String) : CallKind :=
  if name = "__hip_cg_thread_rank" then .threadRank
  else if name = "__hip_cg_group_size" then .groupSize
  else if name = "__hip_cg_sync" then .barrier
  else
    match memberHeads.findSome? fun head => restAfter head name.toList with
    | some rest => memberKind rest
    | none => .other

end CallKind

/-! ### Keywords -/

/-- Whether a word occurs in a text. -/
def occursIn (word : List Char) : List Char → Bool
  | [] => word.isEmpty
  | c :: cs => word.isPrefixOf (c :: cs) || occursIn word cs

/-- The text without its first byte; nothing is left to look at when that byte is not a
whole character. -/
def afterFirstByte : List Char → Option (List Char)
  | [] => none
  | c :: cs => if c.utf8Size = 1 then some cs else none

namespace CallKind

/-- The kind of a function by keyword. A keyword at the very start of the name does not
count, and of two keywords the one for the rank goes before the one for the size, and that
before the one for the barrier. -/
def ofKeyword (name : String) : CallKind :=
  match afterFirstByte name.toList with
  | none => .other
  | some tail =>
    if occursIn "thread_rank".toList tail then .threadRank
    else if occursIn "size".toList tail then .groupSize
    else if occursIn "sync".toList tail then .barrier
    else .other

/-- The kind of a function by the given rule. -/
def ofName : NameRule → String → CallKind
  | .intrinsics => ofIntrinsic
  | .substring => ofKeyword

end CallKind

/-- The kind of an instruction. Only direct calls mean anything. -/
def Instr.kind (rule : NameRule) (i : Instr) : CallKind :=
  match i.callee with
  | some name => .ofName rule name
  | none => .other

end BarrierLowering
