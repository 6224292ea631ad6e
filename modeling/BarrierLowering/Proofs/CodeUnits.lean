import BarrierLowering.Json.Text
import Mathlib

/-!
# Strings as code units

A string of a document is a row of code units. A character up to the end of the first plane is one
unit, and one beyond it is a pair: a high unit and a low unit, which stand for nothing alone. The
characters of a string are the ones with its code units, if there are any.

## Main definitions

* `codeUnits` — the code units of a character.
* `TextPiece.units` — those of a piece of a string.

## Main results

* `codeUnits_append_inj` — the code units of a character are not the beginning of those of another.
* `joinPieces_eq_some_iff` — the characters of a string are those that have its code units.
-/

namespace BarrierLowering.Json

/-- The code units of a character. -/
def codeUnits (c : Char) : List Nat :=
  if c.toNat < 0x10000 then [c.toNat]
  else [0xD800 + (c.toNat - 0x10000) / 0x400, 0xDC00 + (c.toNat - 0x10000) % 0x400]

/-- The code units of a piece of a string. -/
def TextPiece.units : TextPiece → List Nat
  | .char c => codeUnits c
  | .unit n => [n]

variable {c d : Char} {n high low : Nat} {us vs : List Nat} {cs : List Char} {ps : List TextPiece}

/-! ### The code units of a character -/

theorem isHighUnit_iff : isHighUnit n = true ↔ 0xD800 ≤ n ∧ n ≤ 0xDBFF := by
  simp [isHighUnit]

theorem isLowUnit_iff : isLowUnit n = true ↔ 0xDC00 ≤ n ∧ n ≤ 0xDFFF := by
  simp [isLowUnit]

theorem toNat_valid (c : Char) : c.toNat < 0xD800 ∨ 0xDFFF < c.toNat ∧ c.toNat < 0x110000 :=
  c.valid

/-- A character of the first plane is one unit, and no half of a pair. -/
theorem codeUnits_of_lt (h : c.toNat < 0x10000) : codeUnits c = [c.toNat] := if_pos h

/-- A character beyond the first plane is a high unit and a low unit. -/
theorem codeUnits_of_le (h : 0x10000 ≤ c.toNat) :
    ∃ high low, codeUnits c = [high, low] ∧ isHighUnit high ∧ isLowUnit low ∧
      c.toNat = 0x10000 + (high - 0xD800) * 0x400 + (low - 0xDC00) := by
  have hvalid := toNat_valid c
  refine ⟨_, _, if_neg (by omega), isHighUnit_iff.2 ?_, isLowUnit_iff.2 ?_, ?_⟩ <;> omega

/-- A unit of the first plane that is no half of a pair is a character. -/
theorem codeUnits_ofNat (hlt : n < 0x10000) (hhigh : isHighUnit n = false)
    (hlow : isLowUnit n = false) : codeUnits (Char.ofNat n) = [n] := by
  rw [Bool.eq_false_iff, ne_eq, isHighUnit_iff] at hhigh
  rw [Bool.eq_false_iff, ne_eq, isLowUnit_iff] at hlow
  have hvalid : n.isValidChar := by
    unfold Nat.isValidChar
    omega
  have hn : (Char.ofNat n).toNat = n := by rw [Char.toNat_ofNat, if_pos hvalid]
  rw [codeUnits_of_lt (by omega), hn]

/-- A high unit and a low unit are a character. -/
theorem codeUnits_ofNat_pair (hhigh : isHighUnit high) (hlow : isLowUnit low) :
    codeUnits (Char.ofNat (0x10000 + (high - 0xD800) * 0x400 + (low - 0xDC00))) = [high, low] := by
  rw [isHighUnit_iff] at hhigh
  rw [isLowUnit_iff] at hlow
  have hvalid : (0x10000 + (high - 0xD800) * 0x400 + (low - 0xDC00)).isValidChar := by
    unfold Nat.isValidChar
    omega
  rw [codeUnits, Char.toNat_ofNat, if_pos hvalid, if_neg (by omega), List.cons_eq_cons,
    List.cons_eq_cons]
  exact ⟨by omega, by omega, rfl⟩

theorem codeUnits_ne_nil (c : Char) : codeUnits c ≠ [] := by
  unfold codeUnits
  split <;> simp

/-- What the code units of a string begin with: a unit that is no half of a pair, or a pair. -/
theorem codeUnits_append_cases (h : codeUnits c ++ us = n :: vs) :
    (isHighUnit n = false ∧ isLowUnit n = false ∧ n = c.toNat ∧ vs = us) ∨
      (isHighUnit n = true ∧ isLowUnit n = false ∧ ∃ low, isLowUnit low = true ∧ vs = low :: us ∧
        c.toNat = 0x10000 + (n - 0xD800) * 0x400 + (low - 0xDC00)) := by
  by_cases hlt : c.toNat < 0x10000
  · have hvalid := toNat_valid c
    rw [codeUnits_of_lt hlt, List.singleton_append, List.cons_eq_cons] at h
    obtain ⟨rfl, rfl⟩ := h
    refine .inl ⟨?_, ?_, rfl, rfl⟩
    · rw [Bool.eq_false_iff, ne_eq, isHighUnit_iff]
      omega
    · rw [Bool.eq_false_iff, ne_eq, isLowUnit_iff]
      omega
  · obtain ⟨high, low, hunits, hhigh, hlow, hc⟩ := codeUnits_of_le (Nat.le_of_not_lt hlt)
    rw [hunits] at h
    obtain ⟨rfl, rfl⟩ := List.cons.inj h
    refine .inr ⟨hhigh, ?_, low, hlow, rfl, hc⟩
    rw [isHighUnit_iff] at hhigh
    rw [Bool.eq_false_iff, ne_eq, isLowUnit_iff]
    omega

/-- The code units of one character are not the beginning of those of another. -/
theorem codeUnits_append_inj (h : codeUnits c ++ us = codeUnits d ++ vs) : c = d ∧ us = vs := by
  obtain ⟨n, ns, hc⟩ := List.exists_cons_of_ne_nil (codeUnits_ne_nil c)
  have hleft : codeUnits c ++ us = n :: (ns ++ us) := by rw [hc, List.cons_append]
  rcases codeUnits_append_cases hleft with ⟨hhigh, -, hn, hus⟩ | ⟨hhigh, -, low, -, hus, hn⟩ <;>
    rcases codeUnits_append_cases (h.symm.trans hleft) with
      ⟨hhigh', -, hn', hvs⟩ | ⟨hhigh', -, low', -, hvs, hn'⟩
  · exact ⟨Char.toNat_inj.1 (hn.symm.trans hn'), hus.symm.trans hvs⟩
  · rw [hhigh] at hhigh'
    cases hhigh'
  · rw [hhigh] at hhigh'
    cases hhigh'
  · obtain ⟨rfl, rfl⟩ := List.cons.inj (hus.symm.trans hvs)
    exact ⟨Char.toNat_inj.1 (hn.trans hn'.symm), rfl⟩

/-- Strings with the same code units are the same. -/
theorem flatMap_codeUnits_inj {ds : List Char} (h : cs.flatMap codeUnits = ds.flatMap codeUnits) :
    cs = ds := by
  induction cs generalizing ds with
  | nil =>
    cases ds with
    | nil => rfl
    | cons d ds => exact absurd (List.append_eq_nil_iff.1 h.symm).1 (codeUnits_ne_nil d)
  | cons c cs ih =>
    cases ds with
    | nil => exact absurd (List.append_eq_nil_iff.1 h).1 (codeUnits_ne_nil c)
    | cons d ds =>
      obtain ⟨rfl, hrest⟩ := codeUnits_append_inj h
      rw [ih hrest]

/-! ### The characters of a string -/

/-- No string begins with a low unit. -/
theorem low_ne_codeUnits (h : isLowUnit n = true) : n :: us ≠ cs.flatMap codeUnits := by
  intro heq
  cases cs with
  | nil => cases heq
  | cons c cs =>
    rcases codeUnits_append_cases heq.symm with ⟨-, hlow, -, -⟩ | ⟨-, hlow, -⟩ <;>
    · rw [h] at hlow
      cases hlow

/-- In a string a low unit follows each high one. -/
theorem high_ne_codeUnits (h : isHighUnit n = true) (hnext : ∀ m ∈ us.head?, isLowUnit m = false) :
    n :: us ≠ cs.flatMap codeUnits := by
  intro heq
  cases cs with
  | nil => cases heq
  | cons c cs =>
    rcases codeUnits_append_cases heq.symm with ⟨hhigh, -⟩ | ⟨-, -, low, hlow, rfl, -⟩
    · rw [h] at hhigh
      cases hhigh
    · rw [hnext low rfl] at hlow
      cases hlow

/-- A character takes its own code units off the front of a string. -/
theorem map_cons_eq_some_iff {r : Option (List Char)}
    (h : ∀ cs, r = some cs ↔ us = cs.flatMap codeUnits) :
    r.map (c :: ·) = some cs ↔ codeUnits c ++ us = cs.flatMap codeUnits := by
  rw [Option.map_eq_some_iff]
  constructor
  · rintro ⟨ds, hds, rfl⟩
    rw [(h ds).1 hds, List.flatMap_cons]
  · intro heq
    cases cs with
    | nil => exact absurd (List.append_eq_nil_iff.1 heq).1 (codeUnits_ne_nil c)
    | cons d cs =>
      obtain ⟨rfl, hus⟩ := codeUnits_append_inj heq
      exact ⟨cs, (h cs).2 hus, rfl⟩

/-- **The characters of a string are those that have its code units**, and there are none if half of
a pair is missing. -/
theorem joinPieces_eq_some_iff (hps : ∀ n, .unit n ∈ ps → n < 0x10000) :
    joinPieces ps = some cs ↔ ps.flatMap TextPiece.units = cs.flatMap codeUnits := by
  fun_induction joinPieces ps generalizing cs with
  | case1 =>
    cases cs with
    | nil => simp
    | cons c cs => simp [codeUnits_ne_nil c]
  | case2 c rest ih =>
    exact map_cons_eq_some_iff fun cs => ih fun n hn => hps n (List.mem_cons_of_mem _ hn)
  | case3 high low rest hhigh hlow ih =>
    rw [map_cons_eq_some_iff fun cs => ih fun n hn =>
      hps n (List.mem_cons_of_mem _ (List.mem_cons_of_mem _ hn)), codeUnits_ofNat_pair hhigh hlow]
    rfl
  | case4 high low rest hhigh hlow =>
    refine iff_of_false (fun h => nomatch h) (high_ne_codeUnits hhigh fun m hm => ?_)
    obtain rfl := Option.some.inj hm
    exact Bool.eq_false_iff.2 hlow
  | case5 high low rest hhigh hlow =>
    exact iff_of_false (fun h => nomatch h) (low_ne_codeUnits hlow)
  | case6 high low rest hhigh hlow ih =>
    rw [map_cons_eq_some_iff fun cs => ih fun n hn => hps n (List.mem_cons_of_mem _ hn),
      codeUnits_ofNat (hps high List.mem_cons_self) (Bool.eq_false_iff.2 hhigh)
        (Bool.eq_false_iff.2 hlow)]
    rfl
  | case7 n rest hrest hhalf =>
    refine iff_of_false (fun h => nomatch h) ?_
    rcases Bool.or_eq_true_iff.1 hhalf with hhigh | hlow
    · -- behind it is no other unit, but a character or the end
      refine high_ne_codeUnits hhigh fun m hm => ?_
      cases rest with
      | nil => cases hm
      | cons piece rest =>
        cases piece with
        | unit low => exact absurd rfl (hrest low rest)
        | char d =>
          obtain ⟨us, hus⟩ : ∃ us, codeUnits d ++ rest.flatMap TextPiece.units = m :: us := by
            refine ⟨_, (List.cons_head?_tail ?_).symm⟩
            exact hm
          rcases codeUnits_append_cases hus with ⟨-, hlow, -⟩ | ⟨-, hlow, -⟩ <;> exact hlow
    · exact low_ne_codeUnits hlow
  | case8 n rest hrest hhalf ih =>
    rw [Bool.or_eq_true, not_or] at hhalf
    rw [map_cons_eq_some_iff fun cs => ih fun m hm => hps m (List.mem_cons_of_mem _ hm),
      codeUnits_ofNat (hps n List.mem_cons_self) (Bool.eq_false_iff.2 hhalf.1)
        (Bool.eq_false_iff.2 hhalf.2)]
    rfl

end BarrierLowering.Json
