import BarrierLowering.Config.Document
import BarrierLowering.Proofs.Dominators
import BarrierLowering.Proofs.Values

/-!
# Members of a configuration document

The members of a document may come in any order, and members that no field has may stand between
them. Each field that is given has the setting that its value gives, and each other field has its
standard setting. A field must not be given twice. What the keys of the other members are does not
matter, except that each of them has to be a string of characters: the key of a member may write
half of a pair of code units, too, and such a document is refused.

## Main definitions

* `Field.Setting`, `get`, `Overrides.get`, `Overrides.set` — the settings of a field.
* `Field.Gives` — the values that give a field a setting.
* `occurrences`, `WellTyped`, `Overrides.Takes` — what the members of an object give.
* `readMore` — what the reader does behind a member.

## Main results

* `readMore_of_key`, `readMore_of_other`, `readMore_of_given` — what one member does.
* `exists_readMore`, `exists_readMore_error` — what the members of an object do.
* `ofDocument_object` — the configuration that an object stands for.
* `ofDocument_halved` — a document with a key that is half of a pair.
-/

namespace BarrierLowering.Config

open Json

/-! ### Settings -/

/-- What a field can be set to. -/
abbrev Field.Setting : Field → Type
  | .nameRule => NameRule
  | .turnGuard => TurnGuard
  | .maxPaths => Nat
  | .verifyAfter => Bool
  | .eraseBarriers => Bool

/-- The setting of a field. -/
def get (c : Config) : (field : Field) → field.Setting
  | .nameRule => c.nameRule
  | .turnGuard => c.turnGuard
  | .maxPaths => c.maxPaths
  | .verifyAfter => c.verifyAfter
  | .eraseBarriers => c.eraseBarriers

/-- The setting that a document has given to a field. -/
def Overrides.get (o : Overrides) : (field : Field) → Option field.Setting
  | .nameRule => o.nameRule
  | .turnGuard => o.turnGuard
  | .maxPaths => o.maxPaths
  | .verifyAfter => o.verifyAfter
  | .eraseBarriers => o.eraseBarriers

/-- Give a field a setting. -/
def Overrides.set (o : Overrides) : (field : Field) → field.Setting → Overrides
  | .nameRule, rule => { o with nameRule := some rule }
  | .turnGuard, guard => { o with turnGuard := some guard }
  | .maxPaths, n => { o with maxPaths := some n }
  | .verifyAfter, b => { o with verifyAfter := some b }
  | .eraseBarriers, b => { o with eraseBarriers := some b }

/-- The values that stand for a choice: a word, or an object with the word as its only key. -/
inductive Picks {α : Type} (words : List (String × α)) (choice : α) : Value → Prop
  | word {word : String} (h : (word, choice) ∈ words) : Picks words choice (.text (some word))
  | member {word : String} (h : (word, choice) ∈ words) :
    Picks words choice (.object [(some word, .null)])

/-- The values that give a field a setting. -/
def Field.Gives : (field : Field) → Value → field.Setting → Prop
  | .nameRule, v, rule => Picks ruleWords rule v
  | .turnGuard, v, guard => Picks guardWords guard v
  | .maxPaths, v, n => v = .number (some n) ∧ n < 2 ^ 64
  | .verifyAfter, v, b => v = .bool b
  | .eraseBarriers, v, b => v = .bool b

variable {c d : Config} {o : Overrides} {field other : Field} {x y : field.Setting} {v : Value}
  {key : String} {ts rest : List Token} {members : List (Option String × Value)}

/-- A configuration is its settings. -/
theorem ext_get (h : ∀ field, c.get field = d.get field) : c = d := by
  obtain ⟨rule, guard, paths, verify, erase⟩ := c
  obtain ⟨rule', guard', paths', verify', erase'⟩ := d
  obtain rfl : rule = rule' := h .nameRule
  obtain rfl : guard = guard' := h .turnGuard
  obtain rfl : paths = paths' := h .maxPaths
  obtain rfl : verify = verify' := h .verifyAfter
  obtain rfl : erase = erase' := h .eraseBarriers
  rfl

theorem get_applyTo : (o.applyTo c).get field = (o.get field).getD (c.get field) := by
  cases field <;> rfl

@[simp] theorem Overrides.get_none : Overrides.none.get field = Option.none := by
  cases field <;> rfl

theorem Overrides.has_eq : o.has field = (o.get field).isSome := by
  cases field <;> rfl

@[simp] theorem Overrides.get_set : (o.set field x).get field = some x := by
  cases field <;> rfl

theorem Overrides.get_set_of_ne (h : other ≠ field) : (o.set field x).get other = o.get other := by
  cases field <;> cases other <;> first | rfl | exact absurd rfl h

theorem Overrides.has_set_of_ne (h : other ≠ field) : (o.set field x).has other = o.has other := by
  rw [has_eq, has_eq, get_set_of_ne h]

@[simp] theorem Overrides.has_set : (o.set field x).has field = true := by
  rw [has_eq, get_set]
  rfl

/-! ### Reading a setting -/

theorem chosen_of_mem {α : Type} {words : List (String × α)} {word : String} {choice : α}
    (hwords : (words.map (·.1)).Nodup) (h : (word, choice) ∈ words) :
    chosen words word = .ok choice := by
  rw [chosen, (lookup_eq_some_iff_mem hwords).2 h]

theorem readChoice_of_picks {α : Type} {words : List (String × α)} {choice : α}
    (hwords : (words.map (·.1)).Nodup) (h : Picks words choice v) :
    readChoice words (v.tokens ++ rest) = .ok (choice, rest) := by
  cases h with
  | word h =>
    show (chosen words _).map (fun choice => (choice, rest)) = _
    rw [chosen_of_mem hwords h]
    rfl
  | @member word h =>
    show readChoice words (.openObject :: .text (some word) :: .colon :: .null :: .closeObject ::
      rest) = _
    unfold readChoice
    dsimp only
    rw [chosen_of_mem hwords h]

/-- The reader takes a value off the front of the tokens and gives the field its setting. -/
theorem readField_of_gives (h : field.Gives v x) :
    o.readField field (v.tokens ++ rest) = .ok (o.set field x, rest) := by
  cases field with
  | nameRule =>
    have hread : readChoice ruleWords (v.tokens ++ rest) = .ok (x, rest) :=
      readChoice_of_picks (by decide) h
    rw [Overrides.readField, hread]
    rfl
  | turnGuard =>
    have hread : readChoice guardWords (v.tokens ++ rest) = .ok (x, rest) :=
      readChoice_of_picks (by decide) h
    rw [Overrides.readField, hread]
    rfl
  | maxPaths =>
    obtain ⟨rfl, hlt⟩ : v = .number (some x) ∧ x < 2 ^ 64 := h
    have hread : readMaxPaths (.number (some x) :: rest) = .ok (x, rest) := if_pos hlt
    show (readMaxPaths (.number (some x) :: rest)).map _ = _
    rw [hread]
    rfl
  | verifyAfter =>
    obtain rfl : v = .bool x := h
    rfl
  | eraseBarriers =>
    obtain rfl : v = .bool x := h
    rfl

/-- A value gives a field one setting only. -/
theorem Field.Gives.unique (hx : field.Gives v x) (hy : field.Gives v y) : x = y := by
  have hread : Overrides.none.readField field (v.tokens ++ []) =
      .ok (Overrides.none.set field y, []) := readField_of_gives hy
  rw [readField_of_gives hx] at hread
  have hset := congrArg (·.get field) (Prod.mk.inj (Except.ok.inj hread)).1
  rw [Overrides.get_set, Overrides.get_set] at hset
  exact Option.some.inj hset

/-! ### Reading a member -/

theorem ofKey?_key : Field.ofKey? field.key = some field := by
  cases field <;> rfl

theorem key_of_ofKey? (h : Field.ofKey? key = some field) : key = field.key := by
  have hkey := List.find?_some h
  exact (of_decide_eq_true hkey).symm

theorem key_inj (h : other.key = field.key) : other = field := by
  have hsame : Field.ofKey? other.key = some other := ofKey?_key
  rw [h, ofKey?_key] at hsame
  exact (Option.some.inj hsame).symm

/-- A key is unreadable, or it is the key of a field, or it is another one. -/
theorem key_cases (key : Option String) :
    key = none ∨ (∃ field : Field, key = some field.key) ∨
      ∃ other, key = some other ∧ Field.ofKey? other = none := by
  cases key with
  | none => exact .inl rfl
  | some key =>
    cases hkey : Field.ofKey? key with
    | none => exact .inr (.inr ⟨key, rfl, hkey⟩)
    | some field => exact .inr (.inl ⟨field, by rw [key_of_ofKey? hkey]⟩)

/-- Another key is not the key of any field. -/
theorem some_ne_key (h : Field.ofKey? key = none) (field : Field) : some key ≠ some field.key := by
  intro heq
  rw [Option.some.inj heq, ofKey?_key] at h
  cases h

/-- What the reader does behind a member: it goes on with the next one, or the object ends. -/
def readMore (o : Overrides) : List Token → Except ConfigError (Overrides × List Token)
  | .comma :: rest => readMembers o rest
  | .closeObject :: rest => .ok (o, rest)
  | _ => .error .malformedDocument

theorem readMembers_text : readMembers o (.text (some key) :: ts) =
    (readMember o key ts).bind fun (o, rest) => readMore o rest := by
  rw [readMembers]
  split
  · next h => rw [h]; rfl
  · next h => rw [h]; rfl
  · next h => rw [h]; rfl
  · next r hcomma hclose h =>
    obtain ⟨o', rest'⟩ := r
    rw [h]
    show _ = readMore o' rest'
    unfold readMore
    split
    · exact absurd rfl (hcomma o' _)
    · exact absurd rfl (hclose o' _)
    · rfl

theorem readMore_nil : readMore o (moreMembers [] ++ rest) = .ok (o, rest) := rfl

/-- A key that is no string of characters cannot be read. -/
theorem readMore_of_none :
    readMore o (moreMembers ((none, v) :: members) ++ rest) = .error .malformedDocument := by
  show readMembers o (.text none :: _) = _
  rw [readMembers]
  intro key rest h
  cases h

/-- A member is read, and then what is behind it. -/
theorem readMore_cons : readMore o (moreMembers ((some key, v) :: members) ++ rest) =
    (readMember o key (.colon :: (v.tokens ++ (moreMembers members ++ rest)))).bind
      fun (o, rest) => readMore o rest := by
  rw [moreMembers, List.cons_append, List.cons_append, List.cons_append, List.append_assoc]
  exact readMembers_text

theorem readMember_key : readMember o field.key (.colon :: ts) =
    if o.has field then .error (.duplicateField field.key) else o.readField field ts := by
  unfold readMember
  rw [ofKey?_key]

/-- A member that no field has is passed over. -/
theorem readMore_of_other (h : Field.ofKey? key = none) :
    readMore o (moreMembers ((some key, v) :: members) ++ rest) =
      readMore o (moreMembers members ++ rest) := by
  have hread : readMember o key (.colon :: (v.tokens ++ (moreMembers members ++ rest))) =
      .ok (o, moreMembers members ++ rest) := by
    unfold readMember
    rw [h]
    dsimp only
    rw [skipValue_tokens]
  rw [readMore_cons, hread]
  rfl

/-- A member gives a field its setting. -/
theorem readMore_of_key (hnew : o.has field = false) (h : field.Gives v x) :
    readMore o (moreMembers ((some field.key, v) :: members) ++ rest) =
      readMore (o.set field x) (moreMembers members ++ rest) := by
  rw [readMore_cons, readMember_key, hnew, if_neg Bool.false_ne_true, readField_of_gives h]
  rfl

/-- A field must not be given again. -/
theorem readMore_of_given (h : o.has field = true) :
    readMore o (moreMembers ((some field.key, v) :: members) ++ rest) =
      .error (.duplicateField field.key) := by
  rw [readMore_cons, readMember_key, if_pos h]
  rfl

/-! ### Reading all members -/

/-- How often a field is given by the members of an object. -/
def occurrences (field : Field) (members : List (Option String × Value)) : Nat :=
  (members.map (·.1)).count (some field.key)

/-- The value of a field gives it a setting, wherever the field is given. -/
def WellTyped (members : List (Option String × Value)) : Prop :=
  ∀ field : Field, ∀ v, (some field.key, v) ∈ members → ∃ x, field.Gives v x

theorem WellTyped.tail {m : Option String × Value} (h : WellTyped (m :: members)) :
    WellTyped members :=
  fun field v hv => h field v (List.mem_cons_of_mem _ hv)

theorem occurrences_cons_self :
    occurrences field ((some field.key, v) :: members) = occurrences field members + 1 := by
  rw [occurrences, List.map_cons, List.count_cons_self]
  rfl

theorem occurrences_cons_of_ne {key : Option String} (h : key ≠ some field.key) :
    occurrences field ((key, v) :: members) = occurrences field members := by
  rw [occurrences, List.map_cons, List.count_cons_of_ne h]
  rfl

theorem occurrences_eq_zero_iff :
    occurrences field members = 0 ↔ ∀ v, (some field.key, v) ∉ members := by
  rw [occurrences, List.count_eq_zero]
  simp

/-- How often a field is given, by what was read and what is left, does not change when a member is
read that gives a new field. -/
theorem occurrences_add_has_set (hnew : o.has field = false) (other : Field) :
    occurrences other members + ((o.set field x).has other).toNat =
      occurrences other ((some field.key, v) :: members) + (o.has other).toNat := by
  by_cases hne : other = field
  · rw [hne, occurrences_cons_self, Overrides.has_set, hnew]
    rfl
  · rw [occurrences_cons_of_ne fun heq => hne (key_inj (Option.some.inj heq)).symm,
      Overrides.has_set_of_ne hne]

/-- What is given behind some members, where `o` was given in front of them: the fields that the
members give have the settings that their values give, and the others are as before. -/
def Overrides.Takes (o : Overrides) (members : List (Option String × Value)) (o' : Overrides) :
    Prop :=
  ∀ field : Field, (∀ v, (some field.key, v) ∈ members →
      ∃ x, o'.get field = some x ∧ field.Gives v x) ∧
    ((∀ v, (some field.key, v) ∉ members) → o'.get field = o.get field)

variable {o' : Overrides}

theorem Overrides.takes_nil : o.Takes [] o :=
  fun _ => ⟨fun _ hv => absurd hv List.not_mem_nil, fun _ => rfl⟩

/-- A member gives a field its setting, if no later one does. -/
theorem Overrides.Takes.cons_key (h : (o.set field x).Takes members o') (hx : field.Gives v x)
    (hlast : ∀ w, (some field.key, w) ∉ members) :
    o.Takes ((some field.key, v) :: members) o' := by
  intro other
  obtain ⟨hgiven, hrest⟩ := h other
  by_cases hne : other = field
  · subst hne
    refine ⟨fun w hw => ?_, fun habsent => absurd List.mem_cons_self (habsent v)⟩
    rcases List.mem_cons.1 hw with heq | hw
    · obtain rfl := (Prod.mk.inj heq).2
      exact ⟨x, by rw [hrest hlast, get_set], hx⟩
    · exact absurd hw (hlast w)
  · refine ⟨fun w hw => ?_, fun habsent => ?_⟩
    · rcases List.mem_cons.1 hw with heq | hw
      · exact absurd (key_inj (Option.some.inj (Prod.mk.inj heq).1)) hne
      · exact hgiven w hw
    · rw [hrest fun w hw => habsent w (List.mem_cons_of_mem _ hw), get_set_of_ne hne]

/-- A member that no field has gives nothing. -/
theorem Overrides.Takes.cons_other (h : o.Takes members o')
    (hkey : Field.ofKey? key = Option.none) : o.Takes ((some key, v) :: members) o' := by
  intro field
  obtain ⟨hgiven, hrest⟩ := h field
  refine ⟨fun w hw => ?_, fun habsent => hrest fun w hw => habsent w (List.mem_cons_of_mem _ hw)⟩
  rcases List.mem_cons.1 hw with heq | hw
  · exact absurd (Prod.mk.inj heq).1.symm (some_ne_key hkey field)
  · exact hgiven w hw

/-- **If no field is given twice, each field that is given has its setting afterwards, and the
others are as before.** -/
theorem exists_readMore (rest : List Token) (htyped : WellTyped members)
    (hkeys : ∀ m ∈ members, m.1 ≠ none)
    (honce : ∀ field, occurrences field members + (o.has field).toNat ≤ 1) :
    ∃ o', readMore o (moreMembers members ++ rest) = .ok (o', rest) ∧ o.Takes members o' := by
  induction members generalizing o with
  | nil => exact ⟨o, readMore_nil, Overrides.takes_nil⟩
  | cons m members ih =>
    obtain ⟨key, v⟩ := m
    have hkeys' : ∀ m ∈ members, m.1 ≠ none := fun m hm => hkeys m (List.mem_cons_of_mem _ hm)
    rcases key_cases key with rfl | ⟨field, rfl⟩ | ⟨key, rfl, hkey⟩
    · exact absurd rfl (hkeys _ List.mem_cons_self)
    · -- the field is given here only
      have hfield := honce field
      rw [occurrences_cons_self] at hfield
      have hnew : o.has field = false := by
        rw [← Bool.toNat_eq_zero]
        omega
      have hlast : occurrences field members = 0 := by omega
      obtain ⟨x, hx⟩ := htyped field v List.mem_cons_self
      obtain ⟨o', hread, htakes⟩ := ih (o := o.set field x) htyped.tail hkeys' fun other =>
        (occurrences_add_has_set hnew other).trans_le (honce other)
      rw [readMore_of_key hnew hx]
      exact ⟨o', hread, htakes.cons_key hx (occurrences_eq_zero_iff.1 hlast)⟩
    · obtain ⟨o', hread, htakes⟩ := ih (o := o) htyped.tail hkeys' fun other => by
        have hother := honce other
        rwa [occurrences_cons_of_ne (some_ne_key hkey other)] at hother
      rw [readMore_of_other hkey]
      exact ⟨o', hread, htakes.cons_other hkey⟩

/-- **If a field is given twice, the document is refused.**  Unless a key cannot be read, the error
names a field that is given twice. -/
theorem exists_readMore_error (rest : List Token) (htyped : WellTyped members)
    (htwice : 2 ≤ occurrences field members + (o.has field).toNat) :
    ∃ e, readMore o (moreMembers members ++ rest) = .error e ∧
      ((∀ m ∈ members, m.1 ≠ none) → ∃ field : Field,
        2 ≤ occurrences field members + (o.has field).toNat ∧ e = .duplicateField field.key) := by
  induction members generalizing o with
  | nil =>
    have hhas := Bool.toNat_le (o.has field)
    rw [show occurrences field [] = 0 from rfl] at htwice
    omega
  | cons m members ih =>
    obtain ⟨key, v⟩ := m
    rcases key_cases key with rfl | ⟨first, rfl⟩ | ⟨key, rfl, hkey⟩
    · exact ⟨_, readMore_of_none, fun hkeys => absurd rfl (hkeys _ List.mem_cons_self)⟩
    · cases hfirst : o.has first with
      | true =>
        -- the field is given already, so that it is the first one that is given again
        refine ⟨_, readMore_of_given hfirst, fun _ => ⟨first, ?_, rfl⟩⟩
        rw [occurrences_cons_self, hfirst]
        exact Nat.le_add_left 2 _
      | false =>
        obtain ⟨x, hx⟩ := htyped first v List.mem_cons_self
        rw [← occurrences_add_has_set (x := x) hfirst] at htwice
        obtain ⟨e, hread, hspec⟩ := ih htyped.tail htwice
        rw [readMore_of_key hfirst hx]
        refine ⟨e, hread, fun hkeys => ?_⟩
        obtain ⟨other, hother, rfl⟩ := hspec fun m hm => hkeys m (List.mem_cons_of_mem _ hm)
        exact ⟨other, by rwa [← occurrences_add_has_set hfirst], rfl⟩
    · rw [occurrences_cons_of_ne (some_ne_key hkey field)] at htwice
      obtain ⟨e, hread, hspec⟩ := ih htyped.tail htwice
      rw [readMore_of_other hkey]
      refine ⟨e, hread, fun hkeys => ?_⟩
      obtain ⟨other, hother, rfl⟩ := hspec fun m hm => hkeys m (List.mem_cons_of_mem _ hm)
      exact ⟨other, by rwa [occurrences_cons_of_ne (some_ne_key hkey other)], rfl⟩

/-! ### Reading a document -/

variable {text : String}

/-- The members of an object are read one after the other; no field is given before the first. -/
theorem readOverrides_object : readOverrides (Value.object members).tokens =
    readMore .none (moreMembers members ++ []) := by
  rw [List.append_nil]
  cases members with
  | nil => rfl
  | cons m members => rfl

/-- **The configuration of an object**, if no field is given twice and all keys can be read. -/
theorem exists_ofDocument (htext : (Value.object members).Writes text) (htyped : WellTyped members)
    (hkeys : ∀ m ∈ members, m.1 ≠ none) (honce : ∀ field, occurrences field members ≤ 1) :
    ∃ c, ofDocument text = .ok c ∧ ∀ field : Field,
      (∀ v, (some field.key, v) ∈ members → field.Gives v (c.get field)) ∧
        ((∀ v, (some field.key, v) ∉ members) → c.get field = standard.get field) := by
  obtain ⟨o, hread, hspec⟩ := exists_readMore (o := .none) [] htyped hkeys fun field => by
    rw [Overrides.has_eq, Overrides.get_none]
    exact honce field
  refine ⟨o.applyTo standard, ?_, fun field => ⟨fun v hv => ?_, fun habsent => ?_⟩⟩
  · rw [ofDocument, htext.tokens_eq, readOverrides_object, hread]
  · obtain ⟨x, hx, hgives⟩ := (hspec field).1 v hv
    rw [get_applyTo, hx]
    exact hgives
  · rw [get_applyTo, (hspec field).2 habsent, Overrides.get_none]
    rfl

/-- **The document of an object.**  If each field is given at most once, in whatever order and with
whatever members between, the fields that are given have the settings that their values give, and
the others the standard ones; a member that no field has may have any value, but its key has to be
a string of characters. If a field is given twice, the document is refused, whatever the keys of
the other members are; and if they can be read, the error names a field that is given twice. -/
theorem ofDocument_object (htext : (Value.object members).Writes text)
    (htyped : WellTyped members) :
    ((∀ m ∈ members, m.1 ≠ none) → (∀ field, occurrences field members ≤ 1) →
      ∃ c, ofDocument text = .ok c ∧ ∀ field : Field,
        (∀ v, (some field.key, v) ∈ members → field.Gives v (c.get field)) ∧
          ((∀ v, (some field.key, v) ∉ members) → c.get field = standard.get field)) ∧
    ∀ field, 2 ≤ occurrences field members → ∃ e, ofDocument text = .error e ∧
      ((∀ m ∈ members, m.1 ≠ none) →
        ∃ field : Field, 2 ≤ occurrences field members ∧ e = .duplicateField field.key) := by
  refine ⟨exists_ofDocument htext htyped, fun field htwice => ?_⟩
  obtain ⟨e, hread, hspec⟩ := exists_readMore_error (o := .none) [] htyped
    (htwice.trans (Nat.le_add_right _ _))
  refine ⟨e, ?_, fun hkeys => ?_⟩
  · rw [ofDocument, htext.tokens_eq, readOverrides_object, hread]
  · obtain ⟨other, hother, rfl⟩ := hspec hkeys
    rw [Overrides.has_eq, Overrides.get_none] at hother
    exact ⟨other, hother, rfl⟩

/-- Two fields, not in the order in which they are written, and a member that no field has. -/
def annotated : List (Option String × Value) :=
  [(some "max_paths", .number (some 12)),
    (some "notes", .array [.number none, .object []]),
    (some "match_rule", .text (some "substring"))]

/-- A text of these members. -/
def annotatedText : String :=
  "\x7b\"max_paths\": 12,\n\"notes\": [-15, \x7b\x7d],\n\"match_rule\": \"substring\"\x7d"

theorem writes_annotated : (Value.object annotated).Writes annotatedText := by
  have hminus : SpellsNumber none (['-'] ++ ['1', '5'] ++ [] ++ []) :=
    .other (.inr rfl) ⟨⟨by decide, List.all_eq_true.1 rfl⟩, by decide⟩ .none .none
      (.inl (by decide))
  have hrule : Spells [.text (some "match_rule"), .colon, .text (some "substring"), .closeObject]
      "\"match_rule\": \"substring\"\x7d".toList :=
    .key (.token (.text (spellsText_of_plain rfl)) (.token .closeObject .nil)) rfl
  have hvalue := Spells.token .openArray (.token (.number hminus) (.token .comma
    (.space (c := ' ') (by decide) (.token .openObject (.token .closeObject (.token .closeArray
      (.token .comma (.space (c := '\n') (by decide) hrule))))))))
  have hnotes := hvalue.key (show "notes".toList.all isPlain from rfl)
  have hlimit := Spells.token (.number (spellsNumber_toString 12)) (.token .comma
    (.space (c := '\n') (by decide) hnotes))
  exact .token .openObject (hlimit.key (show "max_paths".toList.all isPlain from rfl))

theorem wellTyped_annotated : WellTyped annotated := by
  intro field v hv
  simp only [annotated, List.mem_cons, Prod.mk.injEq, List.not_mem_nil, or_false] at hv
  rcases hv with ⟨hkey, rfl⟩ | ⟨hkey, rfl⟩ | ⟨hkey, rfl⟩
  · obtain rfl : field = .maxPaths := key_inj (Option.some.inj hkey)
    exact ⟨12, rfl, by decide⟩
  · cases field <;> exact absurd hkey (by decide)
  · obtain rfl : field = .nameRule := key_inj (Option.some.inj hkey)
    exact ⟨.substring, .word (by decide)⟩

theorem ofDocument_object_annotated :
    (Value.object annotated).Writes annotatedText ∧ WellTyped annotated ∧
      ofDocument annotatedText = .ok { legacy with maxPaths := 12 } := by
  refine ⟨writes_annotated, wellTyped_annotated, ?_⟩
  obtain ⟨c, hread, hspec⟩ := (ofDocument_object writes_annotated wellTyped_annotated).1
    (by decide) (fun field => by cases field <;> decide)
  have hrule : Field.nameRule.Gives (.text (some "substring")) c.nameRule :=
    (hspec .nameRule).1 _ (by simp [annotated, Field.key])
  have hlimit : Field.maxPaths.Gives (.number (some 12)) c.maxPaths :=
    (hspec .maxPaths).1 _ (by simp [annotated, Field.key])
  have hc : c = { legacy with maxPaths := 12 } := ext_get fun field => by
    cases field with
    | nameRule => exact hrule.unique (.word (by decide))
    | maxPaths => exact hlimit.unique ⟨rfl, by decide⟩
    | turnGuard => exact (hspec .turnGuard).2 (by simp [annotated, Field.key])
    | verifyAfter => exact (hspec .verifyAfter).2 (by simp [annotated, Field.key])
    | eraseBarriers => exact (hspec .eraseBarriers).2 (by simp [annotated, Field.key])
  rw [hread, hc]

/-- The only member has a key that no field has: half of a pair of code units. -/
def halved : List (Option String × Value) := [(none, .number (some 1))]

theorem writes_halved : (Value.object halved).Writes "\x7b\"\\ud800\": 1\x7d" := by
  have hunit : SpellsPiece (.unit 0xd800) "\\ud800".toList :=
    .unit (i := 13) (j := 8) (k := 0) (l := 0) (.inl rfl) (.inl rfl) (.inl rfl) (.inl rfl)
  have hkey : SpellsText none "\"\\ud800\"".toList :=
    ⟨[.unit 0xd800], _, .cons hunit .nil, rfl, fun t =>
      iff_of_false (fun h => nomatch h) (high_ne_codeUnits rfl fun _ h => nomatch h)⟩
  exact .token .openObject (.token (.text hkey) (.token .colon (.space (by decide)
    (.token (.number (spellsNumber_toString 1)) (.token .closeObject .nil)))))

/-- **A document that gives no field is refused** if a key of it cannot be read. -/
theorem ofDocument_halved :
    (Value.object halved).Writes "\x7b\"\\ud800\": 1\x7d" ∧ WellTyped halved ∧
      (∀ field, occurrences field halved = 0) ∧
      ofDocument "\x7b\"\\ud800\": 1\x7d" = .error .malformedDocument := by
  refine ⟨writes_halved, fun field v hv => ?_, fun field => by cases field <;> rfl, ?_⟩
  · rw [halved, List.mem_singleton] at hv
    cases hv
  · rw [ofDocument, writes_halved.tokens_eq, readOverrides_object, halved, readMore_of_none]

end BarrierLowering.Config
