/-!
# JSON numbers

A number has an integer part without needless zeros, and may have a sign before it, a
fraction and an exponent after it. Only one that is all integer part counts as a natural
number.

## Main definitions

* `scanNumber` — the natural number at the front, if that is what it is, and the rest.
-/

namespace BarrierLowering.Json

/-- The number that a list of decimal digits writes. -/
def natOfDigits (digits : List Char) : Nat :=
  digits.foldl (fun n d => 10 * n + (d.toNat - '0'.toNat)) 0

/-- The digits at the front, of which there has to be one, and what follows them. -/
def scanDigits (cs : List Char) : Option (List Char × List Char) :=
  match cs.takeWhile Char.isDigit with
  | [] => none
  | digits => some (digits, cs.dropWhile Char.isDigit)

/-- The integer part at the front. A zero is not followed by a digit. -/
def scanInteger (cs : List Char) : Option (List Char × List Char) := do
  match ← scanDigits cs with
  | ('0' :: _ :: _, _) => none
  | scanned => return scanned

/-- What follows the fraction, if there is one. -/
def skipFraction : List Char → Option (List Char)
  | '.' :: cs => (scanDigits cs).map (·.2)
  | cs => some cs

/-- What follows the sign of an exponent, if there is one. -/
def skipSign : List Char → List Char
  | '+' :: cs | '-' :: cs => cs
  | cs => cs

/-- What follows the exponent, if there is one. -/
def skipExponent : List Char → Option (List Char)
  | 'e' :: cs | 'E' :: cs => (scanDigits (skipSign cs)).map (·.2)
  | cs => some cs

/-- The text without the minus sign at its front, if there is one. -/
def skipMinus : List Char → List Char
  | '-' :: cs => cs
  | cs => cs

/-- The number at the front, and what follows it. The number counts only if it is a natural
number that is written as one. -/
def scanNumber (cs : List Char) : Option (Option Nat × List Char) := do
  let (digits, afterInteger) ← scanInteger (skipMinus cs)
  let afterFraction ← skipFraction afterInteger
  let rest ← skipExponent afterFraction
  let isNatural := cs.head? ≠ some '-' ∧ rest.length = afterInteger.length
  return (if isNatural then some (natOfDigits digits) else none, rest)

/-! ### The rest is shorter -/

/-- What follows a list of digits is shorter. -/
theorem length_lt_of_scanDigits {cs digits rest : List Char}
    (h : scanDigits cs = some (digits, rest)) : rest.length < cs.length := by
  cases cs with
  | nil => simp [scanDigits] at h
  | cons c cs =>
    by_cases hc : c.isDigit
    · simp only [scanDigits, List.takeWhile_cons, List.dropWhile_cons, hc, if_true,
        Option.some.injEq, Prod.mk.injEq] at h
      have := (List.dropWhile_sublist (p := Char.isDigit) (l := cs)).length_le
      simp only [← h.2, List.length_cons]
      omega
    · simp [scanDigits, hc] at h

/-- What follows the integer part is shorter. -/
theorem length_lt_of_scanInteger {cs digits rest : List Char}
    (h : scanInteger cs = some (digits, rest)) : rest.length < cs.length := by
  simp only [scanInteger, Option.bind_eq_bind, Option.bind_eq_some_iff] at h
  obtain ⟨⟨d, r⟩, hd, h⟩ := h
  have := length_lt_of_scanDigits hd
  split at h <;> simp_all

/-- What follows a fraction is no longer. -/
theorem length_le_of_skipFraction {cs rest : List Char} (h : skipFraction cs = some rest) :
    rest.length ≤ cs.length := by
  unfold skipFraction at h
  split at h
  · obtain ⟨⟨d, r⟩, hd, rfl⟩ := Option.map_eq_some_iff.1 h
    have := length_lt_of_scanDigits hd
    simp only [List.length_cons]
    omega
  · simp_all

/-- What follows a sign is no longer. -/
theorem length_skipSign_le (cs : List Char) : (skipSign cs).length ≤ cs.length := by
  unfold skipSign
  split <;> simp

/-- What follows a minus sign is no longer. -/
theorem length_skipMinus_le (cs : List Char) : (skipMinus cs).length ≤ cs.length := by
  unfold skipMinus
  split <;> simp

/-- What follows an exponent is no longer. -/
theorem length_le_of_skipExponent {cs rest : List Char} (h : skipExponent cs = some rest) :
    rest.length ≤ cs.length := by
  unfold skipExponent at h
  split at h
  · next cs =>
    obtain ⟨⟨d, r⟩, hd, rfl⟩ := Option.map_eq_some_iff.1 h
    have := length_lt_of_scanDigits hd
    have := length_skipSign_le cs
    simp only [List.length_cons]
    omega
  · next cs =>
    obtain ⟨⟨d, r⟩, hd, rfl⟩ := Option.map_eq_some_iff.1 h
    have := length_lt_of_scanDigits hd
    have := length_skipSign_le cs
    simp only [List.length_cons]
    omega
  · simp_all

/-- What follows a number is shorter than what it began. -/
theorem length_lt_of_scanNumber {cs rest : List Char} {n : Option Nat}
    (h : scanNumber cs = some (n, rest)) : rest.length < cs.length := by
  simp only [scanNumber, Option.pure_def, Option.bind_eq_bind, Option.bind_eq_some_iff] at h
  obtain ⟨⟨digits, afterInteger⟩, hi, afterFraction, hf, last, he, h⟩ := h
  have hi := length_lt_of_scanInteger hi
  have hf : afterFraction.length ≤ afterInteger.length := length_le_of_skipFraction hf
  have he := length_le_of_skipExponent he
  have hle := length_skipMinus_le cs
  simp only [Option.some.injEq, Prod.mk.injEq] at h
  rw [← h.2]
  omega

end BarrierLowering.Json
