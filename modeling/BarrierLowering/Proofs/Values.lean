import BarrierLowering.Json.Skip
import BarrierLowering.Proofs.Spelling

/-!
# Values

A value is a tree, and a text writes it if it spells its tokens. Whatever the value is, passing over
it leaves the brackets that were open before, and all the tokens behind it.

## Main definitions

* `Value`, `Value.tokens` — values, and their tokens.
* `Value.Writes` — the texts of a value.

## Main results

* `Value.Writes.tokens_eq` — the reader cuts such a text into the tokens of the value.
* `skipValue_tokens` — what is left when a value is passed over.
-/

namespace BarrierLowering.Json

/-- A value. Of a number and of a string it holds what a token holds; the keys of an object may
repeat. -/
inductive Value
  | null
  | bool (b : Bool)
  | number (n : Option Nat)
  | text (s : Option String)
  | array (elements : List Value)
  | object (members : List (Option String × Value))

mutual

/-- The tokens of a value. -/
def Value.tokens : Value → List Token
  | .null => [.null]
  | .bool b => [.bool b]
  | .number n => [.number n]
  | .text s => [.text s]
  | .array [] => [.openArray, .closeArray]
  | .array (v :: vs) => .openArray :: (v.tokens ++ moreElements vs)
  | .object [] => [.openObject, .closeObject]
  | .object ((key, v) :: ms) => .openObject :: .text key :: .colon :: (v.tokens ++ moreMembers ms)

/-- The tokens of the elements of an array after the first, and of its end. -/
def moreElements : List Value → List Token
  | [] => [.closeArray]
  | v :: vs => .comma :: (v.tokens ++ moreElements vs)

/-- The tokens of the members of an object after the first, and of its end. -/
def moreMembers : List (Option String × Value) → List Token
  | [] => [.closeObject]
  | (key, v) :: ms => .comma :: .text key :: .colon :: (v.tokens ++ moreMembers ms)

end

/-- The text spells the tokens of the value, in any way that JSON admits. -/
def Value.Writes (v : Value) (text : String) : Prop := Spells v.tokens text.toList

/-! ### Cutting the text of a value -/

variable {t : Token} {ts ts' : List Token}

theorem separated_singleton : Separated [t] := List.isChain_singleton t

/-- A token that is no number may stand in front of any tokens. -/
theorem Separated.cons (h : Separated ts) (ht : t.isNumber = false) : Separated (t :: ts) := by
  cases ts with
  | nil => exact separated_singleton
  | cons t' ts => exact List.isChain_cons_cons.2 ⟨.inl ht, h⟩

/-- Tokens of which the first is no number may stand behind any tokens. -/
theorem Separated.append (h : Separated ts) (h' : Separated ts')
    (ht : ∀ t ∈ ts'.head?, t.isNumber = false) : Separated (ts ++ ts') :=
  List.IsChain.append h h' fun _ _ t' ht' => .inr (ht t' ht')

theorem isNumber_head_moreElements (vs : List Value) :
    ∀ t ∈ (moreElements vs).head?, t.isNumber = false := by
  cases vs <;> · rintro t ⟨⟩; rfl

theorem isNumber_head_moreMembers (ms : List (Option String × Value)) :
    ∀ t ∈ (moreMembers ms).head?, t.isNumber = false := by
  cases ms <;> · rintro t ⟨⟩; rfl

mutual

/-- In a value no two numbers stand next to each other. -/
theorem separated_tokens : ∀ v : Value, Separated v.tokens
  | .null | .bool _ | .number _ | .text _ => separated_singleton
  | .array [] | .object [] => separated_singleton.cons rfl
  | .array (v :: vs) => ((separated_tokens v).append (separated_moreElements vs)
      (isNumber_head_moreElements vs)).cons rfl
  | .object ((_, v) :: ms) => ((((separated_tokens v).append (separated_moreMembers ms)
      (isNumber_head_moreMembers ms)).cons rfl).cons rfl).cons rfl

theorem separated_moreElements : ∀ vs : List Value, Separated (moreElements vs)
  | [] => separated_singleton
  | v :: vs => ((separated_tokens v).append (separated_moreElements vs)
      (isNumber_head_moreElements vs)).cons rfl

theorem separated_moreMembers : ∀ ms : List (Option String × Value), Separated (moreMembers ms)
  | [] => separated_singleton
  | (_, v) :: ms => ((((separated_tokens v).append (separated_moreMembers ms)
      (isNumber_head_moreMembers ms)).cons rfl).cons rfl).cons rfl

end

/-- The reader cuts the text of a value into its tokens. -/
theorem Value.Writes.tokens_eq {v : Value} {text : String} (h : v.Writes text) :
    Json.tokens text.toList = v.tokens :=
  tokens_of_spells h (separated_tokens v)

/-! ### Passing over a value -/

/-- What is left behind a value: if no bracket is open, all that follows; otherwise the value that
is being read goes on. -/
def resume (brackets : List Bracket) (rest : List Token) : Option (List Token) :=
  if brackets = [] then some rest else skip .more brackets rest

variable {expected expected' : Expected} {brackets brackets' : List Bracket} {rest : List Token}

theorem skip_cons (h : advance expected brackets t = some (expected', brackets'))
    (hmore : expected' ≠ .more) :
    skip expected brackets (t :: rest) = skip expected' brackets' rest := by
  rw [skip, h]
  cases expected' <;> first | rfl | exact absurd rfl hmore

theorem skip_cons_of_more (h : advance expected brackets t = some (.more, brackets')) :
    skip expected brackets (t :: rest) = resume brackets' rest := by
  rw [skip, h]
  cases brackets' <;> rfl

theorem resume_cons {bracket : Bracket} :
    resume (bracket :: brackets) rest = skip .more (bracket :: brackets) rest := rfl

/-- The first element of an array is read like any other value. -/
theorem skip_firstElement (v : Value) :
    skip .firstElement brackets (v.tokens ++ rest) = skip .value brackets (v.tokens ++ rest) := by
  have hsame : ∀ t ts, t ≠ .closeArray →
      skip .firstElement brackets (t :: ts) = skip .value brackets (t :: ts) := by
    intro t ts ht
    have hadvance : advance .firstElement brackets t = advance .value brackets t := by
      cases t with
      | closeArray => exact absurd rfl ht
      | _ => rcases brackets with _ | ⟨⟨⟩, _⟩ <;> rfl
    rw [skip, skip, hadvance]
  unfold Value.tokens
  split <;> exact hsame _ _ (by rintro ⟨⟩)

/-- A member of an object is passed over if its value is. -/
theorem skip_member {v : Value} (hv : ∀ brackets rest,
    skip .value brackets (v.tokens ++ rest) = resume brackets rest) {key : Option String}
    (hkey : expected = .firstKey ∨ expected = .key) :
    skip expected (.object :: brackets) (.text key :: .colon :: (v.tokens ++ rest)) =
      skip .more (.object :: brackets) rest := by
  have htext : advance expected (.object :: brackets) (.text key) =
      some (.colon, .object :: brackets) := by
    rcases hkey with rfl | rfl <;> rfl
  calc skip expected (.object :: brackets) (.text key :: .colon :: (v.tokens ++ rest))
    _ = skip .colon (.object :: brackets) (.colon :: (v.tokens ++ rest)) :=
      skip_cons htext (by decide)
    _ = skip .value (.object :: brackets) (v.tokens ++ rest) := skip_cons rfl (by decide)
    _ = skip .more (.object :: brackets) rest := by rw [hv, resume_cons]

mutual

/-- Passing over a value leaves the brackets as they were. -/
theorem skip_tokens : ∀ (v : Value) (brackets : List Bracket) (rest : List Token),
    skip .value brackets (v.tokens ++ rest) = resume brackets rest
  | .null, _, _ | .bool _, _, _ | .number _, _, _ | .text _, _, _ => skip_cons_of_more rfl
  | .array [], brackets, rest => by
    calc skip .value brackets (.openArray :: .closeArray :: rest)
      _ = skip .firstElement (.array :: brackets) (.closeArray :: rest) := skip_cons rfl (by decide)
      _ = resume brackets rest := skip_cons_of_more rfl
  | .array (v :: vs), brackets, rest => by
    rw [Value.tokens, List.cons_append, List.append_assoc]
    calc skip .value brackets (.openArray :: (v.tokens ++ (moreElements vs ++ rest)))
      _ = skip .firstElement (.array :: brackets) (v.tokens ++ (moreElements vs ++ rest)) :=
        skip_cons rfl (by decide)
      _ = skip .more (.array :: brackets) (moreElements vs ++ rest) := by
        rw [skip_firstElement, skip_tokens v, resume_cons]
      _ = resume brackets rest := skip_moreElements vs brackets rest
  | .object [], brackets, rest => by
    calc skip .value brackets (.openObject :: .closeObject :: rest)
      _ = skip .firstKey (.object :: brackets) (.closeObject :: rest) := skip_cons rfl (by decide)
      _ = resume brackets rest := skip_cons_of_more rfl
  | .object ((key, v) :: ms), brackets, rest => by
    rw [Value.tokens, List.cons_append, List.cons_append, List.cons_append, List.append_assoc]
    calc skip .value brackets
          (.openObject :: .text key :: .colon :: (v.tokens ++ (moreMembers ms ++ rest)))
      _ = skip .firstKey (.object :: brackets)
          (.text key :: .colon :: (v.tokens ++ (moreMembers ms ++ rest))) :=
        skip_cons rfl (by decide)
      _ = skip .more (.object :: brackets) (moreMembers ms ++ rest) :=
        skip_member (skip_tokens v) (.inl rfl)
      _ = resume brackets rest := skip_moreMembers ms brackets rest

theorem skip_moreElements : ∀ (vs : List Value) (brackets : List Bracket) (rest : List Token),
    skip .more (.array :: brackets) (moreElements vs ++ rest) = resume brackets rest
  | [], _, _ => skip_cons_of_more rfl
  | v :: vs, brackets, rest => by
    rw [moreElements, List.cons_append, List.append_assoc]
    calc skip .more (.array :: brackets) (.comma :: (v.tokens ++ (moreElements vs ++ rest)))
      _ = skip .value (.array :: brackets) (v.tokens ++ (moreElements vs ++ rest)) :=
        skip_cons rfl (by decide)
      _ = skip .more (.array :: brackets) (moreElements vs ++ rest) := by
        rw [skip_tokens v, resume_cons]
      _ = resume brackets rest := skip_moreElements vs brackets rest

theorem skip_moreMembers :
    ∀ (ms : List (Option String × Value)) (brackets : List Bracket) (rest : List Token),
      skip .more (.object :: brackets) (moreMembers ms ++ rest) = resume brackets rest
  | [], _, _ => skip_cons_of_more rfl
  | (key, v) :: ms, brackets, rest => by
    rw [moreMembers, List.cons_append, List.cons_append, List.cons_append, List.append_assoc]
    calc skip .more (.object :: brackets)
          (.comma :: .text key :: .colon :: (v.tokens ++ (moreMembers ms ++ rest)))
      _ = skip .key (.object :: brackets)
          (.text key :: .colon :: (v.tokens ++ (moreMembers ms ++ rest))) :=
        skip_cons rfl (by decide)
      _ = skip .more (.object :: brackets) (moreMembers ms ++ rest) :=
        skip_member (skip_tokens v) (.inr rfl)
      _ = resume brackets rest := skip_moreMembers ms brackets rest

end

/-- **A value is passed over as a whole**, and nothing more. -/
theorem skipValue_tokens (v : Value) (rest : List Token) :
    skipValue (v.tokens ++ rest) = some rest :=
  skip_tokens v [] rest

end BarrierLowering.Json
