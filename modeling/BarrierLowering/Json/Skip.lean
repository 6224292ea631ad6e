import BarrierLowering.Json.Token

/-!
# Passing over a JSON value

A member that nobody asks for may hold any value. To pass over one, it is enough to keep
the brackets that are open and what may come next.

## Main definitions

* `Bracket`, `Expected` — what is open, and what may come next.
* `advance` — what one token does to that.
* `skipValue` — the tokens after a value.
-/

namespace BarrierLowering.Json

/-- An open bracket. -/
inductive Bracket
  | object
  | array
  deriving DecidableEq

/-- What may come next. -/
inductive Expected
  | value
  /-- The first element of an array, or its end. -/
  | firstElement
  /-- The first key of an object, or its end. -/
  | firstKey
  | key
  | colon
  /-- Another member of what is open, or its end. -/
  | more
  deriving DecidableEq

/-- Begin a value. -/
def beginValue (brackets : List Bracket) : Token → Option (Expected × List Bracket)
  | .null | .bool _ | .number _ | .text _ => some (.more, brackets)
  | .openArray => some (.firstElement, .array :: brackets)
  | .openObject => some (.firstKey, .object :: brackets)
  | .closeObject | .closeArray | .colon | .comma | .failure => none

/-- Read one token, if it may come next. -/
def advance : Expected → List Bracket → Token → Option (Expected × List Bracket)
  | .firstElement, .array :: brackets, .closeArray => some (.more, brackets)
  | .firstKey, .object :: brackets, .closeObject => some (.more, brackets)
  | .firstKey, brackets, .text _ | .key, brackets, .text _ => some (.colon, brackets)
  | .colon, brackets, .colon => some (.value, brackets)
  | .more, .array :: brackets, .comma => some (.value, .array :: brackets)
  | .more, .object :: brackets, .comma => some (.key, .object :: brackets)
  | .more, .array :: brackets, .closeArray => some (.more, brackets)
  | .more, .object :: brackets, .closeObject => some (.more, brackets)
  | .value, brackets, token | .firstElement, brackets, token => beginValue brackets token
  | _, _, _ => none

/-- The tokens after the value that is being read, once no bracket is open any more. -/
def skip (expected : Expected) (brackets : List Bracket) : List Token → Option (List Token)
  | [] => none
  | token :: rest =>
    match advance expected brackets token with
    | none => none
    | some (.more, []) => some rest
    | some (expected, brackets) => skip expected brackets rest

/-- The tokens after a value. -/
def skipValue (ts : List Token) : Option (List Token) := skip .value [] ts

/-- Fewer tokens are left after a value than before. -/
theorem length_lt_of_skip {expected : Expected} {brackets : List Bracket} {ts rest : List Token}
    (h : skip expected brackets ts = some rest) : rest.length < ts.length := by
  induction ts generalizing expected brackets with
  | nil => simp [skip] at h
  | cons t ts ih =>
    rw [skip] at h
    split at h
    · simp at h
    · simp_all
    · have := ih h
      simp only [List.length_cons]
      omega

end BarrierLowering.Json
