import BarrierLowering.Config
import BarrierLowering.Json.Skip
import BarrierLowering.LoweringError

/-!
# Configuration documents

A configuration is written as a JSON object with one member for each field, or as an array
of the values of the first fields. A field that is left out has its standard value, and a
member with another key is passed over. The document is read from left to right, and the
first failure is the one that is reported.

## Main definitions

* `Config.Field` — the fields, with their keys, in the order in which they are written.
* `Config.Overrides` — the fields that a document has given so far.
* `Config.ofDocument` — read a document.
* `Config.toDocument` — write a document, one field to a line.
-/

namespace BarrierLowering.Config

open Json

/-! ### Fields and words -/

/-- A field of a configuration. -/
inductive Field
  | nameRule
  | turnGuard
  | maxPaths
  | verifyAfter
  | eraseBarriers
  deriving DecidableEq

/-- The fields in the order in which they are written. -/
def Field.all : List Field := [.nameRule, .turnGuard, .maxPaths, .verifyAfter, .eraseBarriers]

/-- The key of a field. -/
def Field.key : Field → String
  | .nameRule => "match_rule"
  | .turnGuard => "turn_guard"
  | .maxPaths => "max_paths"
  | .verifyAfter => "verify_after"
  | .eraseBarriers => "erase_sync_calls"

/-- The field with the given key. -/
def Field.ofKey? (key : String) : Option Field := Field.all.find? fun field => field.key = key

/-- The words for the rules that recognise calls. -/
def ruleWords : List (String × NameRule) :=
  [("intrinsics", .intrinsics), ("substring", .substring)]

/-- The words for the turn guards. -/
def guardWords : List (String × TurnGuard) :=
  [("rank_and_size", .rankAndSize), ("rank_equals_iteration", .rankEqualsIteration)]

/-- The limits on the number of paths that a document can give: all numbers of 64 bits. -/
def maxPathsBound : Nat := UInt64.size

/-! ### Reading a value -/

/-- A reader takes a value off the front of the tokens. -/
abbrev Reader (α : Type) := List Token → Except ConfigError (α × List Token)

/-- The choice that a word stands for. -/
def chosen {α : Type} (words : List (String × α)) (word : String) : Except ConfigError α :=
  match words.lookup word with
  | some choice => .ok choice
  | none => .error (.unknownWord word (words.map (·.1)))

/-- Read a choice: a word, or an object whose only member has the word as its key and null
as its value. -/
def readChoice {α : Type} (words : List (String × α)) : Reader α
  | .text (some word) :: rest => (chosen words word).map fun choice => (choice, rest)
  | .openObject :: .text (some word) :: rest =>
    match chosen words word, rest with
    | .error e, _ => .error e
    | .ok choice, .colon :: .null :: .closeObject :: rest => .ok (choice, rest)
    | .ok _, _ => .error .malformedDocument
  | _ => .error .malformedDocument

/-- Read a limit on the number of paths. -/
def readMaxPaths : Reader Nat
  | .number (some n) :: rest =>
    if n < maxPathsBound then .ok (n, rest) else .error .malformedDocument
  | _ => .error .malformedDocument

/-- Read a truth value. -/
def readBool : Reader Bool
  | .bool b :: rest => .ok (b, rest)
  | _ => .error .malformedDocument

/-! ### Overrides -/

/-- The fields that a document has given. -/
structure Overrides where
  nameRule : Option NameRule
  turnGuard : Option TurnGuard
  maxPaths : Option Nat
  verifyAfter : Option Bool
  eraseBarriers : Option Bool
  deriving DecidableEq

namespace Overrides

/-- No field is given. -/
def none : Overrides := ⟨.none, .none, .none, .none, .none⟩

/-- Whether a field is given. -/
def has (o : Overrides) : Field → Bool
  | .nameRule => o.nameRule.isSome
  | .turnGuard => o.turnGuard.isSome
  | .maxPaths => o.maxPaths.isSome
  | .verifyAfter => o.verifyAfter.isSome
  | .eraseBarriers => o.eraseBarriers.isSome

/-- The given fields, and those of a base configuration for the others. -/
def applyTo (o : Overrides) (base : Config) : Config where
  nameRule := o.nameRule.getD base.nameRule
  turnGuard := o.turnGuard.getD base.turnGuard
  maxPaths := o.maxPaths.getD base.maxPaths
  verifyAfter := o.verifyAfter.getD base.verifyAfter
  eraseBarriers := o.eraseBarriers.getD base.eraseBarriers

/-- Read the value of a field. -/
def readField (o : Overrides) (field : Field) : Reader Overrides := fun ts =>
  match field with
  | .nameRule => (readChoice ruleWords ts).map fun (r, rest) => ({ o with nameRule := r }, rest)
  | .turnGuard => (readChoice guardWords ts).map fun (g, rest) => ({ o with turnGuard := g }, rest)
  | .maxPaths => (readMaxPaths ts).map fun (n, rest) => ({ o with maxPaths := n }, rest)
  | .verifyAfter => (readBool ts).map fun (b, rest) => ({ o with verifyAfter := b }, rest)
  | .eraseBarriers => (readBool ts).map fun (b, rest) => ({ o with eraseBarriers := b }, rest)

end Overrides

/-! ### Fewer tokens are left -/

/-- Fewer tokens are left after a choice. -/
theorem length_lt_of_readChoice {α : Type} {words : List (String × α)} {ts rest : List Token}
    {a : α} (h : readChoice words ts = .ok (a, rest)) : rest.length < ts.length := by
  unfold readChoice at h
  split at h
  · next word ts =>
    cases hc : chosen words word <;> simp_all [Except.map]
  · split at h
    · simp at h
    · simp only [Except.ok.injEq, Prod.mk.injEq] at h
      simp only [← h.2, List.length_cons]
      omega
    · simp at h
  · simp at h

/-- Fewer tokens are left after a limit on the number of paths. -/
theorem length_lt_of_readMaxPaths {ts rest : List Token} {n : Nat}
    (h : readMaxPaths ts = .ok (n, rest)) : rest.length < ts.length := by
  unfold readMaxPaths at h
  split at h
  · split at h <;> simp_all
  · simp at h

/-- Fewer tokens are left after a truth value. -/
theorem length_lt_of_readBool {ts rest : List Token} {b : Bool}
    (h : readBool ts = .ok (b, rest)) : rest.length < ts.length := by
  unfold readBool at h
  split at h <;> simp_all

/-- A mapped result is a success exactly where the result is. -/
theorem map_eq_ok_iff {ε α β : Type} {f : α → β} {r : Except ε α} {b : β} :
    r.map f = .ok b ↔ ∃ a, r = .ok a ∧ f a = b := by
  cases r <;> simp [Except.map]

/-- Fewer tokens are left after the value of a field. -/
theorem length_lt_of_readField {o o' : Overrides} {field : Field} {ts rest : List Token}
    (h : o.readField field ts = .ok (o', rest)) : rest.length < ts.length := by
  cases field <;> simp only [Overrides.readField, map_eq_ok_iff, Prod.mk.injEq] at h <;>
    obtain ⟨⟨a, r⟩, hr, -, rfl⟩ := h
  · exact length_lt_of_readChoice hr
  · exact length_lt_of_readChoice hr
  · exact length_lt_of_readMaxPaths hr
  · exact length_lt_of_readBool hr
  · exact length_lt_of_readBool hr

/-! ### Reading a document -/

/-- Read the colon and the value of a member. A value under a key that no field has is
passed over. A field that is given already fails before its value is looked at. -/
def readMember (o : Overrides) (key : String) : Reader Overrides := fun ts =>
  match Field.ofKey? key, ts with
  | some field, .colon :: rest =>
    if o.has field then .error (.duplicateField key) else o.readField field rest
  | some field, _ =>
    .error (if o.has field then .duplicateField key else .malformedDocument)
  | none, .colon :: rest =>
    match skipValue rest with
    | some rest => .ok (o, rest)
    | none => .error .malformedDocument
  | none, _ => .error .malformedDocument

/-- Fewer tokens are left after a member. -/
theorem length_lt_of_readMember {o o' : Overrides} {key : String} {ts rest : List Token}
    (h : readMember o key ts = .ok (o', rest)) : rest.length < ts.length := by
  unfold readMember at h
  split at h
  · split at h
    · simp at h
    · have := length_lt_of_readField h
      simp only [List.length_cons]
      omega
  · simp at h
  · split at h
    · next hs =>
      have := length_lt_of_skip hs
      simp_all only [Except.ok.injEq, Prod.mk.injEq, List.length_cons]
      omega
    · simp at h
  · simp at h

/-- Read the members of an object, up to its end. -/
def readMembers (o : Overrides) (ts : List Token) : Except ConfigError (Overrides × List Token) :=
  match ts with
  | .text (some key) :: rest =>
    match _ : readMember o key rest with
    | .error e => .error e
    | .ok (o, .comma :: rest) => readMembers o rest
    | .ok (o, .closeObject :: rest) => .ok (o, rest)
    | .ok _ => .error .malformedDocument
  | _ => .error .malformedDocument
termination_by ts.length
decreasing_by
  have := length_lt_of_readMember ‹_›
  simp only [List.length_cons] at this ⊢
  omega

/-- Read the elements of an array after the first, up to its end. -/
def readElements (o : Overrides) : List Field → Reader Overrides
  | _, .closeArray :: rest => .ok (o, rest)
  | field :: fields, .comma :: rest =>
    match o.readField field rest with
    | .error e => .error e
    | .ok (o, rest) => readElements o fields rest
  | _, _ => .error .malformedDocument

/-- Read an object or an array of fields. -/
def readOverrides : Reader Overrides
  | .openObject :: .closeObject :: rest => .ok (.none, rest)
  | .openObject :: rest => readMembers .none rest
  | .openArray :: .closeArray :: rest => .ok (.none, rest)
  | .openArray :: rest => readElements .none Field.all (.comma :: rest)
  | _ => .error .malformedDocument

/-- Read a configuration. Only white space may surround it. -/
def ofDocument (document : String) : Except ConfigError Config :=
  match readOverrides (tokens document.toList) with
  | .error e => .error e
  | .ok (o, []) => .ok (o.applyTo standard)
  | .ok _ => .error .malformedDocument

/-! ### Writing a document -/

/-- The word for a choice. -/
def wordFor {α : Type} [DecidableEq α] (words : List (String × α)) (choice : α) : String :=
  ((words.find? fun entry => entry.2 = choice).map (·.1)).getD ""

/-- The value of a field, as it is written. -/
def fieldText (c : Config) : Field → String
  | .nameRule => "\"" ++ wordFor ruleWords c.nameRule ++ "\""
  | .turnGuard => "\"" ++ wordFor guardWords c.turnGuard ++ "\""
  | .maxPaths => toString c.maxPaths
  | .verifyAfter => if c.verifyAfter then "true" else "false"
  | .eraseBarriers => if c.eraseBarriers then "true" else "false"

/-- Write a configuration: all fields, one to a line, indented by two spaces. -/
def toDocument (c : Config) : String :=
  "\x7b\n" ++
    ",\n".intercalate (Field.all.map fun field =>
      "  \"" ++ field.key ++ "\": " ++ c.fieldText field) ++
    "\n\x7d"

end BarrierLowering.Config
