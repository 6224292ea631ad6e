import BarrierLowering.CallKind
import Mathlib.Data.List.Infix

/-!
# Keywords and the names of the device library

Each name of the device library holds, behind its first byte, the keyword of the kind that it has
there. So the keyword rule misses none of these names. Where the two rules differ, a keyword that
goes before that one stands elsewhere in the name, as it may in a mangled name.

## Main definitions

* `CallKind.keyword?`, `CallKind.precedence` — the keyword of a kind, and which kinds go before
  which.

## Main results

* `CallKind.precedence_le_ofKeyword` — what the keyword rule makes of a name with a keyword.
* `CallKind.keyword_of_ofIntrinsic` — a name of the device library holds its keyword.
* `CallKind.ofName_substring_covers` — the keyword rule covers the other one.
-/

namespace BarrierLowering

theorem occursIn_iff {word text : List Char} : occursIn word text = true ↔ word <:+: text := by
  induction text with
  | nil => rw [occursIn, List.isEmpty_iff, List.infix_nil]
  | cons c cs ih =>
    rw [occursIn, Bool.or_eq_true, List.isPrefixOf_iff_prefix, ih, List.infix_cons_iff]

theorem restAfter_eq_some {word text rest : List Char} (h : restAfter word text = some rest) :
    text = word ++ rest := by
  unfold restAfter at h
  split at h
  · next hprefix =>
    obtain ⟨rest', rfl⟩ := List.isPrefixOf_iff_prefix.1 hprefix
    rw [List.drop_left, Option.some_inj] at h
    rw [h]
  · cases h

namespace CallKind

/-- The keyword of a kind. -/
def keyword? : CallKind → Option String
  | .threadRank => "thread_rank"
  | .groupSize => "size"
  | .barrier => "sync"
  | .other => none

/-- A kind with a higher number goes before one with a lower number, and the kind that means
nothing goes last. -/
def precedence : CallKind → Nat
  | .threadRank => 3
  | .groupSize => 2
  | .barrier => 1
  | .other => 0

variable {name word : String} {kind : CallKind} {tail rest : List Char}

/-- A keyword behind the first byte counts, unless one that goes before it is there, too. -/
theorem precedence_le_ofKeyword (htail : afterFirstByte name.toList = some tail)
    (hword : kind.keyword? = some word) (hoccurs : word.toList <:+: tail) :
    kind.precedence ≤ (ofKeyword name).precedence := by
  rw [← occursIn_iff] at hoccurs
  unfold ofKeyword
  rw [htail]
  cases kind with
  | threadRank =>
    obtain rfl := Option.some.inj hword
    simp only [hoccurs, if_true, le_refl]
  | groupSize =>
    obtain rfl := Option.some.inj hword
    simp only [hoccurs, if_true]
    split <;> decide
  | barrier =>
    obtain rfl := Option.some.inj hword
    simp only [hoccurs, if_true]
    split_ifs <;> decide
  | other => cases hword

/-- A member function has the name of its kind at its end. -/
theorem keyword_of_memberKind (h : memberKind rest ≠ .other) :
    ∃ word, (memberKind rest).keyword? = some word ∧ word.toList <:+: rest := by
  unfold memberKind at h ⊢
  split_ifs at h ⊢ with hrank hsize hsync
  · refine ⟨"thread_rank", rfl, .trans ?_ (List.isSuffixOf_iff_suffix.1 hrank).isInfix⟩
    exact ⟨"11".toList, "Ev".toList, by decide⟩
  · refine ⟨"size", rfl, .trans ?_ (List.isSuffixOf_iff_suffix.1 hsize).isInfix⟩
    exact ⟨"4".toList, "Ev".toList, by decide⟩
  · refine ⟨"sync", rfl, .trans ?_ (List.isSuffixOf_iff_suffix.1 hsync).isInfix⟩
    exact ⟨"4".toList, "Ev".toList, by decide⟩
  · exact absurd rfl h

/-- The names with a kind are three plain ones and those of member functions. -/
theorem ofIntrinsic_cases (h : ofIntrinsic name ≠ .other) :
    (name = "__hip_cg_thread_rank" ∧ ofIntrinsic name = .threadRank) ∨
    (name = "__hip_cg_group_size" ∧ ofIntrinsic name = .groupSize) ∨
    (name = "__hip_cg_sync" ∧ ofIntrinsic name = .barrier) ∨
    ∃ head ∈ memberHeads, ∃ rest, name.toList = head ++ rest ∧
      ofIntrinsic name = memberKind rest := by
  unfold ofIntrinsic at h ⊢
  split_ifs at h ⊢ with hrank hsize hsync
  · exact .inl ⟨hrank, rfl⟩
  · exact .inr (.inl ⟨hsize, rfl⟩)
  · exact .inr (.inr (.inl ⟨hsync, rfl⟩))
  · split at h
    · next rest hfind =>
      obtain ⟨head, hhead, hrest⟩ := List.exists_of_findSome?_eq_some hfind
      exact .inr (.inr (.inr ⟨head, hhead, rest, restAfter_eq_some hrest, rfl⟩))
    · exact absurd rfl h

/-- A name of the device library holds the keyword of its kind behind its first byte. -/
theorem keyword_of_ofIntrinsic (h : ofIntrinsic name ≠ .other) :
    ∃ word tail, (ofIntrinsic name).keyword? = some word ∧
      afterFirstByte name.toList = some tail ∧ word.toList <:+: tail := by
  obtain ⟨rfl, hkind⟩ | ⟨rfl, hkind⟩ | ⟨rfl, hkind⟩ | ⟨head, hhead, rest, hname, hkind⟩ :=
    ofIntrinsic_cases h
  · exact ⟨_, "_hip_cg_thread_rank".toList, by rw [hkind]; rfl, rfl,
      "_hip_cg_".toList, [], by decide⟩
  · exact ⟨_, "_hip_cg_group_size".toList, by rw [hkind]; rfl, rfl,
      "_hip_cg_group_".toList, [], by decide⟩
  · exact ⟨_, "_hip_cg_sync".toList, by rw [hkind]; rfl, rfl, "_hip_cg_".toList, [], by decide⟩
  · rw [hkind] at h ⊢
    obtain ⟨word, hword, hinfix⟩ := keyword_of_memberKind h
    -- both heads begin with an underscore, which is a single byte
    obtain ⟨head, rfl⟩ : ∃ head', head = '_' :: head' := by
      rw [memberHeads, List.mem_cons, List.mem_singleton] at hhead
      rcases hhead with rfl | rfl <;> exact ⟨_, rfl⟩
    refine ⟨word, head ++ rest, hword, by rw [hname]; rfl, ?_⟩
    exact hinfix.trans (List.suffix_append head rest).isInfix

/-- **The keyword rule covers the names of the device library.**  To a name with a kind there it
gives the same kind or one that goes before it, and so never the kind that means nothing. -/
theorem ofName_substring_covers (h : ofName .intrinsics name ≠ .other) :
    (ofName .substring name = ofName .intrinsics name ∨
      (ofName .intrinsics name).precedence < (ofName .substring name).precedence) ∧
    ofName .substring name ≠ .other := by
  obtain ⟨word, tail, hword, htail, hoccurs⟩ := keyword_of_ofIntrinsic h
  have hle : (ofName .intrinsics name).precedence ≤ (ofName .substring name).precedence :=
    precedence_le_ofKeyword htail hword hoccurs
  revert h hle
  cases ofName .intrinsics name <;> cases ofName .substring name <;> decide

/-- A member function that reports a size, inside a class whose name holds another keyword. -/
theorem ofName_substring_covers_rankSize :
    ofName .intrinsics "_ZN18cooperative_groups11thread_rank4sizeEv" = .groupSize ∧
      ofName .substring "_ZN18cooperative_groups11thread_rank4sizeEv" = .threadRank ∧
      (ofName .substring "_ZN18cooperative_groups11thread_rank4sizeEv" =
          ofName .intrinsics "_ZN18cooperative_groups11thread_rank4sizeEv" ∨
        (ofName .intrinsics "_ZN18cooperative_groups11thread_rank4sizeEv").precedence <
          (ofName .substring "_ZN18cooperative_groups11thread_rank4sizeEv").precedence) ∧
      ofName .substring "_ZN18cooperative_groups11thread_rank4sizeEv" ≠ .other :=
  ⟨by decide, by decide, ofName_substring_covers (by decide)⟩

end CallKind

end BarrierLowering
