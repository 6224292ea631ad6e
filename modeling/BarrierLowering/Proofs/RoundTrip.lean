import BarrierLowering.Proofs.Members

/-!
# Written configurations

A configuration is written as an object that gives each field once, in the order of the fields and
with one line for each. The text is one of the texts of that object, so what the reader does with
it follows from what it does with any object: it gives the configuration back, if the limit on the
number of paths is one that a document can give.

## Main definitions

* `written`, `writtenMembers` — the value of a field as it is written, and the members of the
  object.

## Main results

* `writes_toDocument` — the document is a text of the object.
* `ofDocument_toDocument` — a configuration that is written and read is the same one.
-/

namespace BarrierLowering.Config

open Json

variable {c : Config} {field : Field} {fields : List Field} {ts : List Token} {cs : List Char}

/-! ### What is written -/

/-- The value of a field as it is written. -/
def written (c : Config) : Field → Value
  | .nameRule => .text (some (wordFor ruleWords c.nameRule))
  | .turnGuard => .text (some (wordFor guardWords c.turnGuard))
  | .maxPaths => .number (some c.maxPaths)
  | .verifyAfter => .bool c.verifyAfter
  | .eraseBarriers => .bool c.eraseBarriers

/-- The members that are written for some fields. -/
def writtenMembers (c : Config) (fields : List Field) : List (Option String × Value) :=
  fields.map fun field => (some field.key, c.written field)

/-- The word for a choice stands for it. -/
theorem wordFor_mem {α : Type} [DecidableEq α] {words : List (String × α)} {choice : α}
    (h : choice ∈ words.map (·.2)) : (wordFor words choice, choice) ∈ words := by
  obtain ⟨entry, hentry, rfl⟩ := List.mem_map.1 h
  cases hfind : words.find? fun other => other.2 = entry.2 with
  | none => exact absurd (decide_eq_true rfl) (List.find?_eq_none.1 hfind entry hentry)
  | some found =>
    have hsame : found.2 = entry.2 := by simpa using List.find?_some hfind
    rw [wordFor, hfind, ← hsame]
    exact List.mem_of_find?_eq_some hfind

/-- What is written for a field gives it its setting. -/
theorem gives_written (h : c.maxPaths < 2 ^ 64) (field : Field) :
    field.Gives (c.written field) (c.get field) := by
  cases field with
  | nameRule => exact .word (wordFor_mem (by cases c.nameRule <;> decide))
  | turnGuard => exact .word (wordFor_mem (by cases c.turnGuard <;> decide))
  | maxPaths => exact ⟨rfl, h⟩
  | verifyAfter => rfl
  | eraseBarriers => rfl

theorem mem_writtenMembers {key : Option String} {v : Value} :
    (key, v) ∈ c.writtenMembers fields ↔
      ∃ field ∈ fields, some field.key = key ∧ c.written field = v := by
  rw [writtenMembers, List.mem_map]
  simp only [Prod.mk.injEq]

/-- No field is written twice. -/
theorem occurrences_writtenMembers (field : Field) :
    occurrences field (c.writtenMembers Field.all) ≤ 1 := by
  rw [occurrences, writtenMembers, List.map_map]
  have hnodup : (Field.all.map fun field => some field.key).Nodup := by decide
  exact List.nodup_iff_count_le_one.1 hnodup _

theorem mem_all (field : Field) : field ∈ Field.all := by
  cases field <;> decide

/-! ### How it is written -/

/-- The value of a field is a single token, and its text spells it. -/
theorem exists_spellsToken_written (c : Config) (field : Field) :
    ∃ t, (c.written field).tokens = [t] ∧ SpellsToken t (c.fieldText field).toList := by
  have hbool : ∀ b : Bool, SpellsToken (.bool b) (if b then "true" else "false").toList
    | true => .true
    | false => .false
  have hword : ∀ word : String, word.toList.all isPlain →
      SpellsToken (.text (some word)) ("\"" ++ word ++ "\"").toList := by
    intro word hplain
    rw [String.toList_append, String.toList_append]
    exact .text (spellsText_of_plain hplain)
  cases field with
  | nameRule => exact ⟨_, rfl, hword _ (by cases c.nameRule <;> rfl)⟩
  | turnGuard => exact ⟨_, rfl, hword _ (by cases c.turnGuard <;> rfl)⟩
  | maxPaths => exact ⟨_, rfl, .number (spellsNumber_toString c.maxPaths)⟩
  | verifyAfter => exact ⟨_, rfl, hbool c.verifyAfter⟩
  | eraseBarriers => exact ⟨_, rfl, hbool c.eraseBarriers⟩

/-- The line of a field. -/
def lineFor (c : Config) (field : Field) : String :=
  "  \"" ++ field.key ++ "\": " ++ c.fieldText field

theorem spells_lineFor (h : Spells ts cs) :
    Spells (.text (some field.key) :: .colon :: ((c.written field).tokens ++ ts))
      ((c.lineFor field).toList ++ cs) := by
  obtain ⟨t, ht, hspells⟩ := exists_spellsToken_written c field
  have hkey : field.key.toList.all isPlain := by cases field <;> rfl
  have hline : (c.lineFor field).toList ++ cs =
      ' ' :: ' ' :: '"' :: (field.key.toList ++
        '"' :: ':' :: ' ' :: ((c.fieldText field).toList ++ cs)) := by
    simp [lineFor]
  rw [hline, ht]
  exact .space (by decide) (.space (by decide) (.key (.token hspells h) hkey))

/-- The lines of some fields spell their members, and the end of the object. -/
theorem spells_lines (c : Config) (field : Field) (fields : List Field) :
    Spells (.text (some field.key) :: .colon ::
        ((c.written field).tokens ++ moreMembers (c.writtenMembers fields)))
      ((",\n".intercalate ((field :: fields).map c.lineFor)).toList ++ ['\n', '\x7d']) := by
  induction fields generalizing field with
  | nil =>
    rw [List.map_cons, List.map_nil, String.intercalate_singleton]
    exact spells_lineFor (.space (by decide) (.token .closeObject .nil))
  | cons next fields ih =>
    have hmore : Spells (moreMembers (c.writtenMembers (next :: fields)))
        (',' :: '\n' :: ((",\n".intercalate ((next :: fields).map c.lineFor)).toList ++
          ['\n', '\x7d'])) :=
      .token .comma (.space (by decide) (ih next))
    have hlines : (",\n".intercalate ((field :: next :: fields).map c.lineFor)).toList =
        (c.lineFor field).toList ++
          ',' :: '\n' :: (",\n".intercalate ((next :: fields).map c.lineFor)).toList := by
      rw [List.map_cons, List.map_cons, String.intercalate_cons_cons]
      simp
    rw [hlines, List.append_assoc]
    exact spells_lineFor hmore

/-- **The document of a configuration is a text of the object** that gives each field. -/
theorem writes_toDocument (c : Config) :
    (Value.object (c.writtenMembers Field.all)).Writes (toDocument c) := by
  have hdocument : (toDocument c).toList = '\x7b' :: '\n' ::
      ((",\n".intercalate (Field.all.map c.lineFor)).toList ++ ['\n', '\x7d']) := by
    rw [toDocument, String.toList_append, String.toList_append]
    rfl
  rw [Value.Writes, hdocument]
  exact .token .openObject (.space (by decide) (spells_lines c _ _))

/-! ### Writing and reading -/

/-- **A configuration that is written and read is the same one**, if its limit on the number of
paths is a number of 64 bits. -/
theorem ofDocument_toDocument (h : c.maxPaths < 2 ^ 64) : ofDocument (toDocument c) = .ok c := by
  have htyped : WellTyped (c.writtenMembers Field.all) := by
    intro field v hv
    obtain ⟨other, -, hkey, rfl⟩ := mem_writtenMembers.1 hv
    obtain rfl := key_inj (Option.some.inj hkey)
    exact ⟨_, gives_written h other⟩
  have hkeys : ∀ m ∈ c.writtenMembers Field.all, m.1 ≠ none := by
    intro m hm hnone
    obtain ⟨field, -, hkey, -⟩ := mem_writtenMembers.1 hm
    rw [hnone] at hkey
    cases hkey
  obtain ⟨d, hread, hspec⟩ := exists_ofDocument (writes_toDocument c) htyped hkeys
    occurrences_writtenMembers
  have hsame : d = c := ext_get fun field =>
    ((hspec field).1 _ (mem_writtenMembers.2 ⟨field, mem_all field, rfl, rfl⟩)).unique
      (gives_written h field)
  rw [hread, hsame]

theorem ofDocument_toDocument_greatest :
    2 ^ 64 - 1 < 2 ^ 64 ∧ ofDocument (toDocument { legacy with maxPaths := 2 ^ 64 - 1 }) =
      .ok { legacy with maxPaths := 2 ^ 64 - 1 } :=
  ⟨by decide, ofDocument_toDocument (by decide)⟩

end BarrierLowering.Config
