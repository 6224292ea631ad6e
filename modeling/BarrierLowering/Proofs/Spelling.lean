import BarrierLowering.Json.Token
import BarrierLowering.Proofs.CodeUnits

/-!
# How tokens are spelled

What a token may look like in a text is said here without the reader: numbers by their parts,
strings by the code units that their pieces write, and white space between any two tokens. The
reader cuts each such text into its tokens. Only two numbers in a row would run into each other,
and no value has these.

## Main definitions

* `SpellsNumber`, `SpellsText`, `SpellsToken` — the spellings of a number, a string and a token.
* `Spells` — the texts of a row of tokens.
* `Separated` — no two numbers in a row.

## Main results

* `spellsNumber_toString`, `spellsText_of_plain` — the usual spellings.
* `scanNumber_append`, `scanText_append` — the reader takes a number or a string off a text.
* `tokens_of_spells` — the reader cuts a text into the tokens that it spells.
-/

namespace BarrierLowering.Json

/-! ### Numbers -/

/-- Decimal digits, of which there is one at least. -/
def IsDigits (ds : List Char) : Prop := ds ≠ [] ∧ ∀ c ∈ ds, c.isDigit = true

/-- An integer part: a zero, or digits of which the first is no zero. -/
def IsInteger (ds : List Char) : Prop := IsDigits ds ∧ (ds.head? = some '0' → ds = ['0'])

/-- A fraction, which may be missing. -/
inductive IsFraction : List Char → Prop
  | none : IsFraction []
  | digits {ds : List Char} (h : IsDigits ds) : IsFraction ('.' :: ds)

/-- An exponent, which may be missing, with or without a sign. -/
inductive IsExponent : List Char → Prop
  | none : IsExponent []
  | digits {mark : Char} {sign ds : List Char} (hmark : mark = 'e' ∨ mark = 'E')
    (hsign : sign = [] ∨ sign = ['+'] ∨ sign = ['-']) (h : IsDigits ds) :
    IsExponent (mark :: (sign ++ ds))

/-- The spellings of a number: of a natural number that is all integer part, and of any other
number, of which nothing is kept. -/
inductive SpellsNumber : Option Nat → List Char → Prop
  | natural {n : Nat} {ds : List Char} (h : IsInteger ds) (hn : Nat.ofDigitChars 10 ds 0 = n) :
    SpellsNumber (some n) ds
  | other {minus ds fraction exponent : List Char} (hminus : minus = [] ∨ minus = ['-'])
    (hds : IsInteger ds) (hfraction : IsFraction fraction) (hexponent : IsExponent exponent)
    (hne : minus ≠ [] ∨ fraction ++ exponent ≠ []) :
    SpellsNumber none (minus ++ ds ++ fraction ++ exponent)

/-- A text that does not go on with a number in front of it. -/
def EndsNumber (rest : List Char) : Prop :=
  ∀ c ∈ rest.head?, c.isDigit = false ∧ c ≠ '.' ∧ c ≠ 'e' ∧ c ≠ 'E'

variable {ds cs rest word : List Char} {n : Option Nat} {c : Char}

theorem IsDigits.exists_cons (h : IsDigits ds) : ∃ d ds', ds = d :: ds' ∧ d.isDigit = true := by
  obtain ⟨d, ds', rfl⟩ := List.exists_cons_of_ne_nil h.1
  exact ⟨d, ds', rfl, h.2 d List.mem_cons_self⟩

theorem scanDigits_append (h : IsDigits ds) (hrest : ∀ c ∈ rest.head?, c.isDigit = false) :
    scanDigits (ds ++ rest) = some (ds, rest) := by
  have htake : (ds ++ rest).takeWhile Char.isDigit = ds := by
    rw [List.takeWhile_append_of_pos h.2, List.takeWhile_eq_nil_iff.2, List.append_nil]
    intro hlt
    rw [hrest _ (List.head?_eq_getElem? ▸ List.getElem?_eq_getElem hlt)]
    exact Bool.false_ne_true
  have hdrop : (ds ++ rest).dropWhile Char.isDigit = rest := by
    rw [List.dropWhile_append_of_pos h.2, List.dropWhile_eq_self_iff]
    intro hlt
    rw [hrest _ (List.head?_eq_getElem? ▸ List.getElem?_eq_getElem hlt)]
    exact Bool.false_ne_true
  obtain ⟨d, ds, rfl, -⟩ := h.exists_cons
  rw [scanDigits, htake, hdrop]

theorem scanInteger_append (h : IsInteger ds) (hrest : ∀ c ∈ rest.head?, c.isDigit = false) :
    scanInteger (ds ++ rest) = some (ds, rest) := by
  rw [scanInteger, scanDigits_append h.1 hrest]
  simp only [Option.bind_eq_bind, Option.bind_some]
  split
  · next heq =>
    obtain ⟨rfl, -⟩ := Prod.mk.inj heq
    cases h.2 rfl
  · rfl

theorem skipFraction_append (h : IsFraction cs)
    (hrest : ∀ c ∈ rest.head?, c.isDigit = false ∧ c ≠ '.') :
    skipFraction (cs ++ rest) = some rest := by
  cases h with
  | none =>
    rw [List.nil_append]
    unfold skipFraction
    split
    · exact absurd rfl (hrest '.' rfl).2
    · rfl
  | digits h => rw [List.cons_append, skipFraction, scanDigits_append h fun c hc => (hrest c hc).1,
      Option.map_some]

theorem skipSign_append {sign : List Char} (hsign : sign = [] ∨ sign = ['+'] ∨ sign = ['-'])
    (h : IsDigits ds) : skipSign (sign ++ (ds ++ rest)) = ds ++ rest := by
  obtain ⟨d, ds, rfl, hd⟩ := h.exists_cons
  rcases hsign with rfl | rfl | rfl
  · rw [List.nil_append, List.cons_append]
    unfold skipSign
    split
    · next heq => rw [(List.cons.inj heq).1] at hd; cases hd
    · next heq => rw [(List.cons.inj heq).1] at hd; cases hd
    · rfl
  · rfl
  · rfl

theorem skipExponent_append (h : IsExponent cs) (hrest : EndsNumber rest) :
    skipExponent (cs ++ rest) = some rest := by
  cases h with
  | none =>
    rw [List.nil_append]
    unfold skipExponent
    split
    · exact absurd rfl (hrest 'e' rfl).2.2.1
    · exact absurd rfl (hrest 'E' rfl).2.2.2
    · rfl
  | @digits mark sign ds hmark hsign h =>
    have hscan : (scanDigits (skipSign (sign ++ (ds ++ rest)))).map (·.2) = some rest := by
      rw [skipSign_append hsign h, scanDigits_append h fun c hc => (hrest c hc).1, Option.map_some]
    rw [List.cons_append, List.append_assoc]
    rcases hmark with rfl | rfl <;> exact hscan

/-- What follows the integer part is no digit, because an exponent begins with its mark. -/
theorem IsExponent.head_append (h : IsExponent cs) (hrest : EndsNumber rest) :
    ∀ c ∈ (cs ++ rest).head?, c.isDigit = false ∧ c ≠ '.' := by
  intro c hc
  cases h with
  | none => exact ⟨(hrest c hc).1, (hrest c hc).2.1⟩
  | digits hmark hsign h =>
    obtain rfl := Option.some.inj hc
    rcases hmark with rfl | rfl <;> decide

theorem IsFraction.head_append (h : IsFraction cs)
    (hrest : ∀ c ∈ rest.head?, c.isDigit = false) :
    ∀ c ∈ (cs ++ rest).head?, c.isDigit = false := by
  intro c hc
  cases h with
  | none => exact hrest c hc
  | digits h =>
    obtain rfl := Option.some.inj hc
    rfl

theorem skipMinus_of_isDigits (h : IsDigits ds) : skipMinus (ds ++ rest) = ds ++ rest := by
  obtain ⟨d, ds, rfl, hd⟩ := h.exists_cons
  rw [List.cons_append]
  unfold skipMinus
  split
  · next heq => rw [(List.cons.inj heq).1] at hd; cases hd
  · rfl

/-- A number begins with a digit or with a minus sign. -/
theorem SpellsNumber.exists_cons (h : SpellsNumber n word) :
    ∃ c cs, word = c :: cs ∧ (c.isDigit = true ∨ c = '-') := by
  cases h with
  | natural h =>
    obtain ⟨d, ds, rfl, hd⟩ := h.1.exists_cons
    exact ⟨d, ds, rfl, .inl hd⟩
  | other hminus hds =>
    obtain ⟨d, ds, rfl, hd⟩ := hds.1.exists_cons
    rcases hminus with rfl | rfl
    · exact ⟨d, _, rfl, .inl hd⟩
    · exact ⟨'-', _, rfl, .inr rfl⟩

/-- The reader takes a number off a text that does not go on with it. -/
theorem scanNumber_append (h : SpellsNumber n word) (hrest : EndsNumber rest) :
    scanNumber (word ++ rest) = some (n, rest) := by
  cases h with
  | natural h hn =>
    obtain ⟨d, ds, rfl, hd⟩ := h.1.exists_cons
    have hminus : (d :: ds ++ rest).head? ≠ some '-' := by
      rintro heq
      rw [Option.some.inj heq] at hd
      cases hd
    rw [scanNumber, skipMinus_of_isDigits h.1, scanInteger_append h fun c hc => (hrest c hc).1]
    simp only [Option.bind_eq_bind, Option.bind_some]
    rw [show skipFraction rest = some rest from
      skipFraction_append .none fun c hc => ⟨(hrest c hc).1, (hrest c hc).2.1⟩, Option.bind_some,
      show skipExponent rest = some rest from skipExponent_append .none hrest, Option.bind_some,
      if_pos ⟨hminus, rfl⟩, ← hn]
    rfl
  | @other minus ds fraction exponent hminus hds hfraction hexponent hne =>
    have hafter := hexponent.head_append hrest
    have hsign : skipMinus (minus ++ ds ++ fraction ++ exponent ++ rest) =
        ds ++ (fraction ++ (exponent ++ rest)) := by
      rcases hminus with rfl | rfl
      · rw [List.nil_append, List.append_assoc, List.append_assoc, skipMinus_of_isDigits hds.1]
      · simp [skipMinus]
    rw [scanNumber, hsign,
      scanInteger_append hds (hfraction.head_append fun c hc => (hafter c hc).1)]
    simp only [Option.bind_eq_bind, Option.bind_some]
    rw [skipFraction_append hfraction hafter, Option.bind_some,
      skipExponent_append hexponent hrest, Option.bind_some, if_neg]
    · rfl
    · -- it has a sign, or there is something behind its integer part
      rintro ⟨hhead, hlength⟩
      rcases hne with hne | hne
      · obtain rfl := hminus.resolve_left hne
        exact hhead rfl
      · refine hne (List.length_eq_zero_iff.1 ?_)
        simp only [List.length_append] at hlength ⊢
        omega

/-- The decimal digits of a positive number do not begin with a zero. -/
theorem eq_zero_of_head?_toDigits {n : Nat} (h : (Nat.toDigits 10 n).head? = some '0') : n = 0 := by
  induction n using Nat.strongRecOn with
  | ind n ih =>
    rw [Nat.toDigits_eq_if (by decide)] at h
    split_ifs at h with hlt
    · have hdigit : ∀ d < 10, Nat.digitChar d = '0' → d = 0 := by decide
      exact hdigit n hlt (Option.some.inj h)
    · rw [List.head?_append_of_ne_nil _ Nat.toDigits_ne_nil] at h
      have hdiv := ih (n / 10) (by omega) h
      omega

/-- A natural number is spelled by its decimal digits. -/
theorem spellsNumber_toString (n : Nat) : SpellsNumber (some n) (toString n).toList := by
  rw [Nat.toString_eq_ofList_toDigits, String.toList_ofList]
  refine .natural ⟨⟨Nat.toDigits_ne_nil, fun c hc =>
    Nat.isDigit_of_mem_toDigits (by decide) (by decide) hc⟩, fun hzero => ?_⟩
    (Nat.ofDigitChars_toDigits (by decide) (by decide))
  rw [eq_zero_of_head?_toDigits hzero]
  rfl

/-! ### Strings -/

/-- The characters that may follow a backslash, and what they stand for there. -/
def shortEscapes : List (Char × Char) :=
  [('"', '"'), ('\\', '\\'), ('/', '/'), ('b', '\x08'), ('f', '\x0c'), ('n', '\n'), ('r', '\r'),
    ('t', '\t')]

/-- The hexadecimal digits of a value, of which the greater ones have two. -/
def IsHexDigit (v : Nat) (c : Char) : Prop :=
  "0123456789abcdef".toList[v]? = some c ∨ "0123456789ABCDEF".toList[v]? = some c

/-- The spellings of a piece of a string: a character as it is, by a short escape, or a code unit
by its number. -/
inductive SpellsPiece : TextPiece → List Char → Prop
  | plain {c : Char} (hquote : c ≠ '"') (hescape : c ≠ '\\') (h : 0x20 ≤ c.toNat) :
    SpellsPiece (.char c) [c]
  | short {escape c : Char} (h : (escape, c) ∈ shortEscapes) : SpellsPiece (.char c) ['\\', escape]
  | unit {a b c d : Char} {i j k l : Nat} (ha : IsHexDigit i a) (hb : IsHexDigit j b)
    (hc : IsHexDigit k c) (hd : IsHexDigit l d) :
    SpellsPiece (.unit (((i * 16 + j) * 16 + k) * 16 + l)) ['\\', 'u', a, b, c, d]

/-- The spellings of the pieces of a string. -/
inductive SpellsPieces : List TextPiece → List Char → Prop
  | nil : SpellsPieces [] []
  | cons {piece : TextPiece} {pieces : List TextPiece} {word cs : List Char}
    (h : SpellsPiece piece word) (hs : SpellsPieces pieces cs) :
    SpellsPieces (piece :: pieces) (word ++ cs)

/-- The spellings of a string between its quotes. It is a string of characters if its code units
are those of the characters. -/
def SpellsText (s : Option String) (word : List Char) : Prop :=
  ∃ pieces body, SpellsPieces pieces body ∧ word = '"' :: (body ++ ['"']) ∧
    ∀ t : String, s = some t ↔ pieces.flatMap TextPiece.units = t.toList.flatMap codeUnits

/-- The characters that need no escape: all but quotes, backslashes and control characters. -/
def isPlain (c : Char) : Bool := c ≠ '"' && c ≠ '\\' && 0x20 ≤ c.toNat

variable {piece : TextPiece} {pieces : List TextPiece} {s : Option String}

theorem isPlain_iff : isPlain c = true ↔ c ≠ '"' ∧ c ≠ '\\' ∧ 0x20 ≤ c.toNat := by
  simp [isPlain, and_assoc]

theorem shortEscape_of_mem {escape : Char} (h : (escape, c) ∈ shortEscapes) :
    shortEscape escape = some c := by
  simp only [shortEscapes, List.mem_cons, Prod.mk.injEq, List.not_mem_nil, or_false] at h
  rcases h with ⟨rfl, rfl⟩ | ⟨rfl, rfl⟩ | ⟨rfl, rfl⟩ | ⟨rfl, rfl⟩ | ⟨rfl, rfl⟩ | ⟨rfl, rfl⟩ |
    ⟨rfl, rfl⟩ | ⟨rfl, rfl⟩ <;> rfl

theorem IsHexDigit.lt {v : Nat} (h : IsHexDigit v c) : v < 16 := by
  rcases h with h | h <;> exact (List.getElem?_eq_some_iff.1 h).1

theorem IsHexDigit.hexValue_eq {v : Nat} (h : IsHexDigit v c) : hexValue c = some v := by
  have hlower : ∀ v < 16, "0123456789abcdef".toList[v]?.map hexValue = some (some v) := by decide
  have hupper : ∀ v < 16, "0123456789ABCDEF".toList[v]?.map hexValue = some (some v) := by decide
  have hlt := h.lt
  rcases h with h | h
  · have hvalue := hlower v hlt
    rw [h] at hvalue
    exact Option.some.inj hvalue
  · have hvalue := hupper v hlt
    rw [h] at hvalue
    exact Option.some.inj hvalue

theorem SpellsPieces.unit_lt (h : SpellsPieces pieces cs) :
    ∀ n, .unit n ∈ pieces → n < 0x10000 := by
  induction h with
  | nil => exact fun n hn => nomatch hn
  | cons h hs ih =>
    intro n hn
    rcases List.mem_cons.1 hn with rfl | hn
    · cases h with
      | unit ha hb hc hd =>
        have := ha.lt
        have := hb.lt
        have := hc.lt
        have := hd.lt
        omega
    · exact ih n hn

/-- The reader takes a piece off the rest of a string. -/
theorem scanText_piece (h : SpellsPiece piece word) {tail : List Char}
    (hs : scanText cs = some (pieces, tail)) :
    scanText (word ++ cs) = some (piece :: pieces, tail) := by
  cases h with
  | plain hquote hescape h =>
    rw [List.singleton_append, scanText.eq_5 _ _ hquote, if_neg (Nat.not_lt.2 h), hs]
    · rfl
    · exact fun _ _ _ _ _ heq => absurd heq hescape
    · exact fun _ _ heq => absurd heq hescape
  | short h =>
    have hshort := shortEscape_of_mem h
    rw [List.cons_append, List.singleton_append, scanText.eq_4, hshort, Option.bind_eq_bind,
      Option.bind_some, hs]
    · rfl
    · rintro a b c d rest rfl
      cases hshort
  | @unit a b c d i j k l ha hb hc hd =>
    have hunit : hexUnit a b c d = some (((i * 16 + j) * 16 + k) * 16 + l) := by
      rw [hexUnit, ha.hexValue_eq, hb.hexValue_eq, hc.hexValue_eq, hd.hexValue_eq]
      rfl
    show scanText ('\\' :: 'u' :: a :: b :: c :: d :: cs) = _
    rw [scanText.eq_3, hunit, Option.bind_eq_bind, Option.bind_some, hs]
    rfl

theorem scanText_append (h : SpellsPieces pieces cs) :
    scanText (cs ++ '"' :: rest) = some (pieces, rest) := by
  induction h with
  | nil => rfl
  | cons h hs ih =>
    rw [List.append_assoc]
    exact scanText_piece h ih

/-- Plain characters spell themselves. -/
theorem spellsPieces_map_char (h : cs.all isPlain) : SpellsPieces (cs.map .char) cs := by
  induction cs with
  | nil => exact .nil
  | cons c cs ih =>
    obtain ⟨hc, hcs⟩ := Bool.and_eq_true_iff.1 h
    obtain ⟨hquote, hescape, hle⟩ := isPlain_iff.1 hc
    exact .cons (.plain hquote hescape hle) (ih hcs)

/-- The pieces that have the code units of some characters are a string of these characters. -/
theorem spellsText_of_units {t : String} (h : SpellsPieces pieces cs)
    (hunits : pieces.flatMap TextPiece.units = t.toList.flatMap codeUnits) :
    SpellsText (some t) ('"' :: (cs ++ ['"'])) := by
  refine ⟨pieces, cs, h, rfl, fun u => ?_⟩
  rw [hunits, Option.some.injEq]
  constructor
  · rintro rfl
    rfl
  · exact fun hsame => String.toList_inj.1 (flatMap_codeUnits_inj hsame)

/-- A string of plain characters is spelled by itself, between quotes. -/
theorem spellsText_of_plain {t : String} (h : t.toList.all isPlain) :
    SpellsText (some t) ('"' :: (t.toList ++ ['"'])) :=
  spellsText_of_units (spellsPieces_map_char h) (List.flatMap_map ..)

/-- The pieces of a string stand for its characters. -/
theorem joinPieces_eq (h : SpellsPieces pieces cs)
    (hs : ∀ t : String, s = some t ↔
      pieces.flatMap TextPiece.units = t.toList.flatMap codeUnits) :
    (joinPieces pieces).map String.ofList = s := by
  refine Option.ext fun t => ?_
  rw [hs, ← joinPieces_eq_some_iff h.unit_lt, Option.map_eq_some_iff]
  constructor
  · rintro ⟨cs, hcs, rfl⟩
    rw [hcs, String.toList_ofList]
  · intro ht
    exact ⟨t.toList, ht, String.ofList_toList⟩

/-! ### Tokens -/

/-- The spellings of a token. -/
inductive SpellsToken : Token → List Char → Prop
  | openObject : SpellsToken .openObject ['\x7b']
  | closeObject : SpellsToken .closeObject ['\x7d']
  | openArray : SpellsToken .openArray ['[']
  | closeArray : SpellsToken .closeArray [']']
  | colon : SpellsToken .colon [':']
  | comma : SpellsToken .comma [',']
  | null : SpellsToken .null "null".toList
  | true : SpellsToken (.bool true) "true".toList
  | false : SpellsToken (.bool false) "false".toList
  | number {n : Option Nat} {word : List Char} (h : SpellsNumber n word) :
    SpellsToken (.number n) word
  | text {s : Option String} {word : List Char} (h : SpellsText s word) : SpellsToken (.text s) word

/-- The texts of a row of tokens. White space may stand in front of each token, and at the end. -/
inductive Spells : List Token → List Char → Prop
  | nil : Spells [] []
  | space {c : Char} {ts : List Token} {cs : List Char} (hc : c ∈ [' ', '\n', '\t', '\r'])
    (h : Spells ts cs) : Spells ts (c :: cs)
  | token {t : Token} {ts : List Token} {word cs : List Char} (ht : SpellsToken t word)
    (h : Spells ts cs) : Spells (t :: ts) (word ++ cs)

/-- Whether a token is a number. -/
def Token.isNumber : Token → Bool
  | .number _ => true
  | _ => false

/-- No two numbers stand next to each other. -/
def Separated (ts : List Token) : Prop :=
  ts.IsChain fun t t' => t.isNumber = false ∨ t'.isNumber = false

variable {t : Token} {ts : List Token}

/-- The usual spelling of a key: as it is between quotes, with a colon and a space behind it. -/
theorem Spells.key {key : String} (h : Spells ts cs) (hkey : key.toList.all isPlain) :
    Spells (.text (some key) :: .colon :: ts) ('"' :: (key.toList ++ '"' :: ':' :: ' ' :: cs)) := by
  have hspells : Spells (.text (some key) :: .colon :: ts)
      ('"' :: (key.toList ++ ['"']) ++ ([':'] ++ ' ' :: cs)) :=
    .token (.text (spellsText_of_plain hkey)) (.token .colon (.space (by decide) h))
  rwa [List.cons_append, List.append_assoc] at hspells

theorem isSpace_iff : isSpace c = true ↔ c ∈ [' ', '\n', '\t', '\r'] := by
  simp [isSpace, or_assoc]

theorem tokens_of_isSpace (hc : isSpace c = true) : tokens (c :: cs) = tokens cs := by
  rw [tokens, if_pos hc]

theorem tokens_of_scanToken (hc : isSpace c = false) (h : scanToken c cs = some (t, rest)) :
    tokens (c :: cs) = t :: tokens rest := by
  rw [tokens, if_neg (Bool.eq_false_iff.1 hc)]
  split
  · next hnone => rw [hnone] at h; cases h
  · next hsome =>
    rw [hsome] at h
    cases h
    rfl

/-- Of the tokens only the numbers begin with a digit or a minus sign. -/
theorem scanToken_of_number (cs : List Char) (h : c.isDigit = true ∨ c = '-') :
    isSpace c = false ∧
      scanToken c cs = (scanNumber (c :: cs)).map fun (n, rest) => (.number n, rest) := by
  have hne : ∀ d : Char, d.isDigit = false → d ≠ '-' → c ≠ d := by
    rintro d hdigit hminus rfl
    rcases h with h | rfl
    · rw [h] at hdigit; cases hdigit
    · exact hminus rfl
  have hspace : isSpace c = false := by
    rw [Bool.eq_false_iff, ne_eq, isSpace_iff]
    intro hmem
    simp only [List.mem_cons, List.not_mem_nil, or_false] at hmem
    rcases hmem with rfl | rfl | rfl | rfl <;> exact hne _ rfl (by decide) rfl
  have hpunctuation : punctuation c = none := by
    unfold punctuation
    split
    all_goals first | rfl | exact absurd rfl (hne _ rfl (by decide))
  refine ⟨hspace, ?_⟩
  unfold scanToken
  rw [hpunctuation]
  dsimp only
  split
  all_goals first | rfl | exact absurd rfl (hne _ rfl (by decide))

/-- The reader takes a token off a text. -/
theorem scanToken_append (h : SpellsToken t word) (hrest : t.isNumber = true → EndsNumber rest) :
    ∃ c cs, word = c :: cs ∧ isSpace c = false ∧ scanToken c (cs ++ rest) = some (t, rest) := by
  cases h with
  | number h =>
    obtain ⟨c, cs, rfl, hc⟩ := h.exists_cons
    obtain ⟨hspace, hscan⟩ := scanToken_of_number (cs ++ rest) hc
    refine ⟨c, cs, rfl, hspace, ?_⟩
    rw [hscan, ← List.cons_append, scanNumber_append h (hrest rfl), Option.map_some]
  | text h =>
    obtain ⟨pieces, body, hpieces, rfl, hs⟩ := h
    refine ⟨'"', body ++ ['"'], rfl, rfl, ?_⟩
    show (scanText (body ++ ['"'] ++ rest)).map (fun scanned =>
      (Token.text ((joinPieces scanned.1).map String.ofList), scanned.2)) = _
    rw [List.append_assoc, List.singleton_append, scanText_append hpieces, Option.map_some]
    exact congrArg (fun s => some (Token.text s, rest)) (joinPieces_eq hpieces hs)
  | null => exact ⟨'n', "ull".toList, rfl, rfl, rfl⟩
  | true => exact ⟨'t', "rue".toList, rfl, rfl, rfl⟩
  | false => exact ⟨'f', "alse".toList, rfl, rfl, rfl⟩
  | _ => exact ⟨_, [], rfl, rfl, rfl⟩

/-- Neither white space nor any token but a number goes on with a number. -/
theorem endsNumber_of_spells (h : Spells ts cs) (hts : ∀ t ∈ ts.head?, t.isNumber = false) :
    EndsNumber cs := by
  intro c hc
  cases h with
  | nil => cases hc
  | space hspace =>
    obtain rfl := Option.some.inj hc
    simp only [List.mem_cons, List.not_mem_nil, or_false] at hspace
    rcases hspace with rfl | rfl | rfl | rfl <;> decide
  | @token t ts word cs ht h =>
    cases ht with
    | number => cases hts _ rfl
    | text h =>
      obtain ⟨pieces, body, -, rfl, -⟩ := h
      obtain rfl := Option.some.inj hc
      decide
    | _ =>
      obtain rfl := Option.some.inj hc
      decide

/-- **The reader cuts a text into the tokens that it spells**, if no two numbers stand next to each
other. -/
theorem tokens_of_spells (h : Spells ts cs) (hts : Separated ts) : tokens cs = ts := by
  induction h with
  | nil => rw [tokens]
  | space hc h ih => rw [tokens_of_isSpace (isSpace_iff.2 hc), ih hts]
  | @token t ts word cs ht h ih =>
    have hrest : t.isNumber = true → EndsNumber cs := by
      refine fun hnumber => endsNumber_of_spells h fun t' ht' => ?_
      obtain ⟨ts, rfl⟩ : ∃ ts', ts = t' :: ts' := by
        cases ts with
        | nil => cases ht'
        | cons u ts => exact ⟨ts, by rw [Option.some.inj ht']⟩
      refine (List.isChain_cons_cons.1 hts).1.resolve_left ?_
      rw [hnumber]
      exact Bool.true_eq_false_eq_False
    obtain ⟨c, cs', rfl, hc, hscan⟩ := scanToken_append ht hrest
    rw [List.cons_append, tokens_of_scanToken hc hscan, ih hts.tail]

end BarrierLowering.Json
