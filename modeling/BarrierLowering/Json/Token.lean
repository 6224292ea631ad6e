import BarrierLowering.Json.Number
import BarrierLowering.Json.Text

/-!
# JSON tokens

A text is cut into tokens from left to right. Where that cannot go on, a token that stands
for the failure ends the list, so that a reader of the list meets it only after what is in
front of it.

## Main definitions

* `Token` — what a text is cut into.
* `tokens` — the tokens of a text.
-/

namespace BarrierLowering.Json

/-- A token. -/
inductive Token
  | openObject
  | closeObject
  | openArray
  | closeArray
  | colon
  | comma
  | null
  | bool (b : Bool)
  /-- A number, of which only a natural number is kept. -/
  | number (n : Option Nat)
  /-- A string, of which nothing is kept if half of a pair of code units is missing. -/
  | text (s : Option String)
  /-- The text cannot be cut any further. -/
  | failure
  deriving DecidableEq

/-- The characters that may stand between two tokens. -/
def isSpace (c : Char) : Bool := c = ' ' || c = '\n' || c = '\t' || c = '\r'

/-- The tokens that are a single character. -/
def punctuation : Char → Option Token
  | '\x7b' => some .openObject
  | '\x7d' => some .closeObject
  | '[' => some .openArray
  | ']' => some .closeArray
  | ':' => some .colon
  | ',' => some .comma
  | _ => none

/-- The token at the front of a text that begins with `c`, and what follows it. -/
def scanToken (c : Char) (rest : List Char) : Option (Token × List Char) :=
  match punctuation c with
  | some token => some (token, rest)
  | none =>
    match c, rest with
    | 'n', 'u' :: 'l' :: 'l' :: rest => some (.null, rest)
    | 't', 'r' :: 'u' :: 'e' :: rest => some (.bool true, rest)
    | 'f', 'a' :: 'l' :: 's' :: 'e' :: rest => some (.bool false, rest)
    | '"', rest =>
      (scanText rest).map fun (pieces, rest) =>
        (.text ((joinPieces pieces).map String.ofList), rest)
    | c, rest => (scanNumber (c :: rest)).map fun (n, rest) => (.number n, rest)

/-- What follows a token is shorter than what it began. -/
theorem length_lt_of_scanToken {c : Char} {cs rest : List Char} {t : Token}
    (h : scanToken c cs = some (t, rest)) : rest.length < (c :: cs).length := by
  unfold scanToken at h
  split at h
  · simp_all
  · split at h
    · simp only [Option.some.injEq, Prod.mk.injEq] at h
      simp only [← h.2, List.length_cons]
      omega
    · simp only [Option.some.injEq, Prod.mk.injEq] at h
      simp only [← h.2, List.length_cons]
      omega
    · simp only [Option.some.injEq, Prod.mk.injEq] at h
      simp only [← h.2, List.length_cons]
      omega
    · obtain ⟨⟨pieces, r⟩, hr, h⟩ := Option.map_eq_some_iff.1 h
      have := length_lt_of_scanText hr
      simp_all only [Prod.mk.injEq, List.length_cons]
      omega
    · obtain ⟨⟨n, r⟩, hr, h⟩ := Option.map_eq_some_iff.1 h
      have := length_lt_of_scanNumber hr
      simp_all

/-- The tokens of a text. -/
def tokens (cs : List Char) : List Token :=
  match cs with
  | [] => []
  | c :: cs =>
    if isSpace c then tokens cs
    else
      match _ : scanToken c cs with
      | none => [.failure]
      | some (token, rest) => token :: tokens rest
termination_by cs.length
decreasing_by
  · simp
  · exact length_lt_of_scanToken ‹_›

end BarrierLowering.Json
