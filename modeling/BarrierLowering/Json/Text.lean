/-!
# JSON strings

A string stands between double quotes. A backslash begins an escape; the escape of a code
unit has four hexadecimal digits, and a character beyond the first plane takes a pair of
them.

## Main definitions

* `TextPiece`, `scanText` — the pieces of a string, as they are written.
* `joinPieces` — the characters that the pieces stand for.
-/

namespace BarrierLowering.Json

/-- A piece of a string. -/
inductive TextPiece
  /-- A character, written as it is or by an escape of its own. -/
  | char (c : Char)
  /-- A code unit, written by its number. -/
  | unit (n : Nat)
  deriving DecidableEq

/-- The value of a hexadecimal digit. -/
def hexValue (c : Char) : Option Nat :=
  if '0' ≤ c ∧ c ≤ '9' then some (c.toNat - '0'.toNat)
  else if 'a' ≤ c ∧ c ≤ 'f' then some (c.toNat - 'a'.toNat + 10)
  else if 'A' ≤ c ∧ c ≤ 'F' then some (c.toNat - 'A'.toNat + 10)
  else none

/-- The code unit that four hexadecimal digits write. -/
def hexUnit (a b c d : Char) : Option Nat := do
  return (((← hexValue a) * 16 + (← hexValue b)) * 16 + (← hexValue c)) * 16 + (← hexValue d)

/-- The character that a short escape stands for. -/
def shortEscape : Char → Option Char
  | '"' => some '"'
  | '\\' => some '\\'
  | '/' => some '/'
  | 'b' => some '\x08'
  | 'f' => some '\x0c'
  | 'n' => some '\n'
  | 'r' => some '\r'
  | 't' => some '\t'
  | _ => none

/-- The pieces of a string, up to its closing quote, and what follows that. Control
characters have to be escaped. -/
def scanText : List Char → Option (List TextPiece × List Char)
  | [] => none
  | '"' :: rest => some ([], rest)
  | '\\' :: 'u' :: a :: b :: c :: d :: rest => do
    let n ← hexUnit a b c d
    let (pieces, rest) ← scanText rest
    return (.unit n :: pieces, rest)
  | '\\' :: escape :: rest => do
    let c ← shortEscape escape
    let (pieces, rest) ← scanText rest
    return (.char c :: pieces, rest)
  | c :: rest =>
    if c.toNat < 0x20 then none
    else do
      let (pieces, rest) ← scanText rest
      return (.char c :: pieces, rest)

/-- The first half of a pair of code units. -/
def isHighUnit (n : Nat) : Bool := 0xD800 ≤ n && n ≤ 0xDBFF

/-- The second half of a pair of code units. -/
def isLowUnit (n : Nat) : Bool := 0xDC00 ≤ n && n ≤ 0xDFFF

/-- The characters that the pieces of a string stand for; none if half of a pair is missing. -/
def joinPieces : List TextPiece → Option (List Char)
  | [] => some []
  | .char c :: rest => (joinPieces rest).map (c :: ·)
  | .unit high :: .unit low :: rest =>
    if isHighUnit high then
      if isLowUnit low then
        (joinPieces rest).map
          (Char.ofNat (0x10000 + (high - 0xD800) * 0x400 + (low - 0xDC00)) :: ·)
      else none
    else if isLowUnit high then none
    else (joinPieces (.unit low :: rest)).map (Char.ofNat high :: ·)
  | .unit n :: rest =>
    if isHighUnit n || isLowUnit n then none else (joinPieces rest).map (Char.ofNat n :: ·)

/-- What follows a string is shorter than what it began. -/
theorem length_lt_of_scanText {cs rest : List Char} {pieces : List TextPiece}
    (h : scanText cs = some (pieces, rest)) : rest.length < cs.length := by
  fun_induction scanText cs generalizing pieces rest with
  | case1 => simp at h
  | case2 => simp_all
  | case3 a b c d cs ih =>
    simp only [Option.pure_def, Option.bind_eq_bind, Option.bind_eq_some_iff] at h
    obtain ⟨_, _, ⟨p, r⟩, hr, h⟩ := h
    have := ih hr
    simp_all only [Option.some.injEq, Prod.mk.injEq, List.length_cons]
    omega
  | case4 escape cs _ ih =>
    simp only [Option.pure_def, Option.bind_eq_bind, Option.bind_eq_some_iff] at h
    obtain ⟨_, _, ⟨p, r⟩, hr, h⟩ := h
    have := ih hr
    simp_all only [Option.some.injEq, Prod.mk.injEq, List.length_cons]
    omega
  | case5 => simp at h
  | case6 c cs _ _ _ _ ih =>
    simp only [Option.pure_def, Option.bind_eq_bind, Option.bind_eq_some_iff] at h
    obtain ⟨⟨p, r⟩, hr, h⟩ := h
    have := ih hr
    simp_all only [Option.some.injEq, Prod.mk.injEq, List.length_cons]
    omega

end BarrierLowering.Json
