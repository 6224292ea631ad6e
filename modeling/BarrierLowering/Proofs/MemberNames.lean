import BarrierLowering.CallKind
import Mathlib.Data.List.Infix

/-!
# Names of member functions

The mangled name of a member function is a row of components, each of which is an identifier with
its length in front. The rule for the names of the device library does not take the row apart: it
looks at the end of the mangled name. There the length and the name of a member may also be the
tail of a longer identifier, and a function with such a name counts as the member, too.

## Main definitions

* `isIdentifier`, `component`, `mangledMember` — how the name of a member function is mangled.
* `TakenFor` — the last components that the rule takes for a given member.

## Main results

* `component_suffix_iff` — what the end of a mangled name says about its last component.
* `CallKind.ofIntrinsic_mangledMember` — the kind of a member function, by its last component.
* `CallKind.ofIntrinsic_tail` — functions with longer names that count as the members.
-/

namespace BarrierLowering

/-! ### Mangled names -/

/-- A letter or an underscore, and behind it letters, digits and underscores. -/
def isIdentifier (s : String) : Bool :=
  match s.toList with
  | [] => false
  | c :: cs => (c.isAlpha || c = '_') && cs.all fun c => c.isAlphanum || c = '_'

/-- An identifier with its length in front. -/
def component (s : String) : String := toString s.length ++ s

/-- The mangled name of a member function without parameters in the group namespace, a constant
one or not. The last component is the name of the function. -/
def mangledMember (constant : Bool) (components : List String) : String :=
  (if constant then "_ZNK" else "_ZN") ++ "18cooperative_groups" ++
    String.join (components.map component) ++ "Ev"

/-- The last components that the rule takes for the member `word`: this member, and what ends in
its component. -/
def TakenFor (word last : String) : Prop :=
  last = word ∨ (component word).toList <:+ last.toList

/-! ### The last component -/

theorem toList_component (s : String) :
    (component s).toList = Nat.toDigits 10 s.toList.length ++ s.toList := by
  rw [component, String.toList_append, Nat.toString_eq_ofList_toDigits, String.toList_ofList,
    String.length_toList]

/-- The digits stand before all letters. -/
theorem not_isDigit_of_isAlpha {c : Char} (h : c.isAlpha = true) : c.isDigit = false := by
  rw [Bool.eq_false_iff]
  intro hdigit
  have hnine : c.val ≤ '9'.val := of_decide_eq_true (Bool.and_eq_true_iff.1 hdigit).2
  rcases Bool.or_eq_true_iff.1 h with hupper | hlower
  · have hfirst : 'A'.val ≤ c.val := (of_decide_eq_true hupper).1
    exact absurd (UInt32.le_trans hfirst hnine) (by decide)
  · have hfirst : 'a'.val ≤ c.val := of_decide_eq_true (Bool.and_eq_true_iff.1 hlower).1
    exact absurd (UInt32.le_trans hfirst hnine) (by decide)

/-- No identifier begins with a digit. -/
theorem not_isDigit_of_isIdentifier {s : String} (h : isIdentifier s) :
    ∀ c ∈ s.toList.head?, c.isDigit = false := by
  unfold isIdentifier at h
  cases hs : s.toList with
  | nil => simp
  | cons first rest =>
    rw [hs, Bool.and_eq_true, Bool.or_eq_true, decide_eq_true_eq] at h
    intro c hc
    obtain rfl := Option.some.inj hc
    rcases h.1 with halpha | rfl
    · exact not_isDigit_of_isAlpha halpha
    · rfl

/-- Behind the last component nothing can be told from its end but the identifier in it, since its
length is written in digits and a word has none. -/
theorem eq_or_suffix_of_digits {digits length word last before : List Char}
    (hdigits : ∀ c ∈ digits, c.isDigit = true) (hlength : ∀ c ∈ length, c.isDigit = true)
    (hne : length ≠ []) (hword : ∀ c ∈ word, c.isDigit = false)
    (hhead : ∀ c ∈ last.head?, c.isDigit = false)
    (h : digits ++ word <:+ before ++ length ++ last) :
    last = word ∨ digits ++ word <:+ last := by
  rcases List.suffix_or_suffix_of_suffix h (List.suffix_append (before ++ length) last) with
    hsuffix | hsuffix
  · exact .inr hsuffix
  left
  rcases List.suffix_or_suffix_of_suffix hsuffix (List.suffix_append digits word) with
    ⟨lead, rfl⟩ | ⟨lead, rfl⟩
  · -- the word is longer than the identifier, and the rest of it would end in a digit
    rcases List.eq_nil_or_concat' lead with rfl | ⟨lead, c, rfl⟩
    · rfl
    obtain ⟨length, d, rfl⟩ := (List.eq_nil_or_concat' length).resolve_left hne
    rw [← List.append_assoc, List.suffix_append_self_iff, ← List.append_assoc,
      ← List.append_assoc] at h
    obtain rfl : c = d :=
      List.singleton_suffix_append_singleton_iff.1 ((List.suffix_append _ _).trans h)
    have hdigit := hlength c (by simp)
    rw [hword c (by simp)] at hdigit
    cases hdigit
  · -- the identifier is longer than the word, and would begin with a digit
    cases lead with
    | nil => rfl
    | cons c lead =>
      have hlead := List.suffix_append_self_iff.1 hsuffix
      have hdigit := hdigits c (hlead.mem List.mem_cons_self)
      rw [hhead c rfl] at hdigit
      cases hdigit

theorem isDigit_of_mem_digits {n : Nat} : ∀ c ∈ Nat.toDigits 10 n, c.isDigit = true :=
  fun _ hc => Nat.isDigit_of_mem_toDigits (by decide) (by decide) hc

/-- The length and the name of a member stand at the end if the last component is this member, or
if they are the tail of the identifier in it. -/
theorem component_suffix_iff {word last : String} {before : List Char}
    (hword : ∀ c ∈ word.toList, c.isDigit = false) (hlast : isIdentifier last) :
    (component word).toList <:+ before ++ (component last).toList ↔ TakenFor word last := by
  constructor
  · intro h
    rw [toList_component, toList_component, ← List.append_assoc] at h
    rw [TakenFor, toList_component, ← String.toList_inj]
    exact eq_or_suffix_of_digits isDigit_of_mem_digits isDigit_of_mem_digits Nat.toDigits_ne_nil
      hword (not_isDigit_of_isIdentifier hlast) h
  · rintro (rfl | h)
    · exact List.suffix_append _ _
    · have hcomponent : last.toList <:+ (component last).toList := by
        rw [toList_component]
        exact List.suffix_append _ _
      exact (h.trans hcomponent).trans (List.suffix_append _ _)

/-! ### The kind of a member function -/

theorem TakenFor.suffix {word last : String} (h : TakenFor word last) :
    word.toList <:+ last.toList := by
  rcases h with rfl | h
  · exact List.suffix_rfl
  · rw [toList_component] at h
    exact (List.suffix_append _ _).trans h

/-- No component is taken for two members of which neither is the tail of the other. -/
theorem TakenFor.not_takenFor {word word' last : String} (h : TakenFor word last)
    (hne : ¬word.toList <:+ word'.toList) (hne' : ¬word'.toList <:+ word.toList) :
    ¬TakenFor word' last :=
  fun h' => (List.suffix_or_suffix_of_suffix h.suffix h'.suffix).elim hne hne'

instance (word last : String) : Decidable (TakenFor word last) :=
  inferInstanceAs (Decidable (last = word ∨ (component word).toList <:+ last.toList))

theorem toList_mangledMember (constant : Bool) (components : List String) (last : String) :
    ∃ head ∈ memberHeads, ∃ before, (mangledMember constant (components ++ [last])).toList =
      head ++ (before ++ (component last).toList ++ "Ev".toList) := by
  refine ⟨(if constant then "_ZNK" else "_ZN").toList ++ "18cooperative_groups".toList, ?_,
    (String.join (components.map component)).toList, ?_⟩
  · cases constant <;> decide
  · simp [mangledMember, String.join_append]

theorem restAfter_append (word rest : List Char) : restAfter word (word ++ rest) = some rest := by
  rw [restAfter, if_pos (List.isPrefixOf_iff_prefix.2 (List.prefix_append word rest)),
    List.drop_left]

/-- What begins like the name of a member is none of the plain names. -/
theorem CallKind.ofIntrinsic_of_head {name : String} {head rest : List Char}
    (hhead : head ∈ memberHeads) (h : name.toList = head ++ rest) :
    ofIntrinsic name = memberKind rest := by
  have hplain : ∀ plain : String, (∀ head ∈ memberHeads, ¬head <+: plain.toList) →
      name ≠ plain := by
    rintro plain hne rfl
    exact hne head hhead (h ▸ List.prefix_append head rest)
  have hfind : memberHeads.findSome? (fun head => restAfter head name.toList) = some rest := by
    rw [h]
    rw [memberHeads, List.mem_cons, List.mem_singleton] at hhead
    rcases hhead with rfl | rfl
    · rw [memberHeads, List.findSome?_cons, restAfter_append]
    · -- a constant member function is no plain one, since the names differ in the fourth letter
      have hother : restAfter "_ZN18cooperative_groups".toList
        ("_ZNK18cooperative_groups".toList ++ rest) = none := rfl
      rw [memberHeads, List.findSome?_cons, hother, List.findSome?_cons, restAfter_append]
  rw [ofIntrinsic, if_neg (hplain _ (by decide)), if_neg (hplain _ (by decide)),
    if_neg (hplain _ (by decide)), hfind]

theorem isSuffixOf_component (word : String) {last : String} (before : List Char)
    (hword : ∀ c ∈ word.toList, c.isDigit = false) (hlast : isIdentifier last) :
    ((component word).toList ++ "Ev".toList).isSuffixOf
      (before ++ (component last).toList ++ "Ev".toList) = true ↔ TakenFor word last := by
  rw [List.isSuffixOf_iff_suffix, List.suffix_append_self_iff, component_suffix_iff hword hlast]

theorem memberKind_component {last : String} (hlast : isIdentifier last) (before : List Char) :
    memberKind (before ++ (component last).toList ++ "Ev".toList) =
      if TakenFor "thread_rank" last then .threadRank
      else if TakenFor "size" last then .groupSize
      else if TakenFor "sync" last then .barrier
      else .other := by
  have hrank := isSuffixOf_component "thread_rank" before (by simp) hlast
  have hsize := isSuffixOf_component "size" before (by simp) hlast
  have hsync := isSuffixOf_component "sync" before (by simp) hlast
  simp only [← hrank, ← hsize, ← hsync]
  rfl

namespace CallKind

/-- **The kind of a member function.**  Whatever identifiers stand in front of it, it is the last
component of a mangled name that decides: the rank is asked for if the rule takes it for the member
`thread_rank`, the size if it takes it for `size`, and it is the barrier if it takes it for `sync`.
All other member functions mean nothing. -/
theorem ofIntrinsic_mangledMember (constant : Bool) (components : List String) {last : String}
    (hlast : isIdentifier last) :
    (ofIntrinsic (mangledMember constant (components ++ [last])) = .threadRank ↔
      TakenFor "thread_rank" last) ∧
    (ofIntrinsic (mangledMember constant (components ++ [last])) = .groupSize ↔
      TakenFor "size" last) ∧
    (ofIntrinsic (mangledMember constant (components ++ [last])) = .barrier ↔
      TakenFor "sync" last) ∧
    (ofIntrinsic (mangledMember constant (components ++ [last])) = .other ↔
      ¬TakenFor "thread_rank" last ∧ ¬TakenFor "size" last ∧ ¬TakenFor "sync" last) := by
  obtain ⟨head, hhead, before, hname⟩ := toList_mangledMember constant components last
  rw [ofIntrinsic_of_head hhead hname, memberKind_component hlast]
  have hrank : TakenFor "thread_rank" last → ¬TakenFor "size" last ∧ ¬TakenFor "sync" last :=
    fun h => ⟨h.not_takenFor (by decide) (by decide), h.not_takenFor (by decide) (by decide)⟩
  have hsize : TakenFor "size" last → ¬TakenFor "sync" last :=
    fun h => h.not_takenFor (by decide) (by decide)
  split_ifs <;> simp_all

/-- Components in front that are members, or look like one at their end, do not count. -/
theorem ofIntrinsic_mangledMember_rank :
    isIdentifier "thread_rank" = true ∧ TakenFor "thread_rank" "thread_rank" ∧
      mangledMember true ["a4sync", "size", "thread_rank"] =
        "_ZNK18cooperative_groups6a4sync4size11thread_rankEv" ∧
      ofIntrinsic (mangledMember true ["a4sync", "size", "thread_rank"]) = .threadRank := by
  have hlast : isIdentifier "thread_rank" = true := by decide
  have htaken : TakenFor "thread_rank" "thread_rank" := .inl rfl
  exact ⟨hlast, htaken, by decide,
    (ofIntrinsic_mangledMember true ["a4sync", "size"] hlast).1.2 htaken⟩

/-- Three functions that have other names than the members of the group, and count as these
members: each name ends in the length and the name of a member. -/
theorem ofIntrinsic_tail :
    isIdentifier "x11thread_rank" = true ∧ isIdentifier "a4size" = true ∧
      isIdentifier "a4sync" = true ∧
      mangledMember false ["x11thread_rank"] = "_ZN18cooperative_groups14x11thread_rankEv" ∧
      mangledMember false ["a4size"] = "_ZN18cooperative_groups6a4sizeEv" ∧
      mangledMember false ["a4sync"] = "_ZN18cooperative_groups6a4syncEv" ∧
      ofIntrinsic (mangledMember false ["x11thread_rank"]) = .threadRank ∧
      ofIntrinsic (mangledMember false ["a4size"]) = .groupSize ∧
      ofIntrinsic (mangledMember false ["a4sync"]) = .barrier := by
  decide

end CallKind

end BarrierLowering
