import TokenGrammar.Json.Write
import TokenGrammar.Proofs.Skipping
import TokenGrammar.Proofs.WellFormed

/-!
# The members of an object, in any order

A text that is spelled in any way is read as what it stands for (`Spells.readString`). The
members of an object are taken in one after another (`Fills`). A member of an unknown name
leaves a record as it is, and the only member of a field's name gives the field its value,
wherever it stands (`Fills.others`, `Fills.insert`).
-/

namespace TokenGrammar.Json

-- ---------------------------------------------------------------------------
-- Spellings
-- ---------------------------------------------------------------------------

/-- Whether what stands between quotes stands for these characters. -/
inductive Spells : List Symbol → List Char → Prop
  | nil : Spells [] []
  | plain (hplain : (Symbol.char c).isPlain = true) (hrest : Spells units cs) :
      Spells (.char c :: units) (c :: cs)
  | short (hshort : shortEscape? e = some c) (hrest : Spells units cs) :
      Spells (.char '\\' :: .char e :: units) (c :: cs)
  | code (hcode : IsCode digits n) (hhigh : isHighHalf n = false) (hlow : isLowHalf n = false)
      (hrest : Spells units cs) :
      Spells (.char '\\' :: .char 'u' :: (digits ++ units)) (Char.ofNat n :: cs)
  | pair (hcode : IsCode digits n) (hhigh : isHighHalf n = true) (hcode' : IsCode digits' m)
      (hlow : isLowHalf m = true) (hrest : Spells units cs) :
      Spells (.char '\\' :: .char 'u' :: (digits ++ .char '\\' :: .char 'u' :: (digits' ++ units)))
        (joinHalves n m :: cs)

def StandsForText (core : List Symbol) (text : String) : Prop :=
  ∃ units, core = quoted units ∧ Spells units text.toList

theorem isLowHalf_of_isHighHalf (h : isHighHalf n = true) : isLowHalf n = false := by
  simp only [isHighHalf, isLowHalf, Bool.and_eq_true, decide_eq_true_eq, Bool.and_eq_false_iff,
    decide_eq_false_iff_not] at h ⊢
  omega

theorem readUnit_short (hshort : shortEscape? e = some c) (rest : List Symbol) :
    readUnit readEscape (.char '\\' :: .char e :: rest) = .ok (some (.char c), rest) := by
  have hu : e ≠ 'u' := by rintro rfl; contradiction
  have hread : readEscape (.char e :: rest) = .ok (c, rest) := by
    unfold readEscape
    split
    · contradiction
    · next heq => exact absurd (Symbol.char.inj (List.cons.inj heq).1) hu
    · next heq =>
      cases heq
      simp [hshort]
    · next heq => cases heq
  simp [readUnit, hread]

theorem readUnit_code (hcode : IsCode digits n) (hhigh : isHighHalf n = false)
    (hlow : isLowHalf n = false) (rest : List Symbol) :
    readUnit readEscape (.char '\\' :: .char 'u' :: (digits ++ rest)) =
      .ok (some (.char (Char.ofNat n)), rest) := by
  simp [readUnit, readEscape, readCode, hcode.readHex, hhigh, hlow]

theorem readUnit_pair (hcode : IsCode digits n) (hhigh : isHighHalf n = true)
    (hcode' : IsCode digits' m) (hlow : isLowHalf m = true) (rest : List Symbol) :
    readUnit readEscape (.char '\\' :: .char 'u' ::
      (digits ++ .char '\\' :: .char 'u' :: (digits' ++ rest))) =
        .ok (some (.char (joinHalves n m)), rest) := by
  simp [readUnit, readEscape, readCode, readWord, hcode.readHex, hcode'.readHex, hhigh, hlow,
    isLowHalf_of_isHighHalf hhigh]

theorem Spells.readUnits (h : Spells units cs) (hbudget : units.length < budget)
    (rest : List Symbol) :
    readUnits readEscape budget (units ++ .char '"' :: rest) = .ok (cs.map .char, rest) := by
  induction h generalizing budget with
  | nil =>
    cases budget with
    | zero => contradiction
    | succ budget => rfl
  | plain hplain _ ih =>
    cases budget with
    | zero => contradiction
    | succ budget =>
      exact readUnits_cons (readUnit_plain _ hplain _) (ih (Nat.succ_lt_succ_iff.1 hbudget))
  | short hshort _ ih =>
    cases budget with
    | zero => contradiction
    | succ budget =>
      simp only [List.length_cons] at hbudget
      exact readUnits_cons (readUnit_short hshort _) (ih (by omega))
  | code hcode hhigh hlow _ ih =>
    cases budget with
    | zero => contradiction
    | succ budget =>
      simp only [List.length_cons, List.length_append] at hbudget
      simp only [List.cons_append, List.append_assoc]
      exact readUnits_cons (readUnit_code hcode hhigh hlow _) (ih (by omega))
  | pair hcode hhigh hcode' hlow _ ih =>
    cases budget with
    | zero => contradiction
    | succ budget =>
      simp only [List.length_cons, List.length_append] at hbudget
      simp only [List.cons_append, List.append_assoc]
      exact readUnits_cons (readUnit_pair hcode hhigh hcode' hlow _) (ih (by omega))

theorem Spells.readString (h : Spells units text.toList) (rest : List Symbol) :
    readString (units ++ .char '"' :: rest) = .ok (text, rest) := by
  have hbudget : units.length < (units ++ .char '"' :: rest).length := by
    simp only [List.length_append, List.length_cons]
    omega
  rw [Json.readString, h.readUnits hbudget rest, ok_bind]
  simp [Symbol.text?_map_char]

-- ---------------------------------------------------------------------------
-- Members
-- ---------------------------------------------------------------------------

/-- An entry whose key stands for a name and whose value is a JSON value. -/
structure Member extends Pair where
  name : String
  spelled : StandsForText key.core name
  valid : Valid value.core

namespace Member

def content (m : Member) : List Symbol :=
  m.key.after.text ++ .char ':' :: (m.value.before.text ++ m.value.core)

def entry (m : Member) : String × List Symbol :=
  (m.name, m.key.before.text ++ m.key.core ++ m.content ++ m.value.after.text)

theorem snd_entry (m : Member) : m.entry.2 = m.text := by
  simp [entry, content, Pair.text, Spaced.text]

theorem exists_readKeyMark (m : Member) (gap : Blanks) (rest : List Symbol) :
    ∃ text, readKeyMark (gap.text ++ (m.key.before.text ++ m.key.core ++ rest)) = .ok text ∧
      readString text = .ok (m.name, rest) := by
  obtain ⟨units, hkey, hunits⟩ := m.spelled
  refine ⟨units ++ .char '"' :: rest, ?_, hunits.readString rest⟩
  rw [readKeyMark, skipBlanks_append gap.blank, ← readKeyMark]
  simp only [hkey, quoted, List.append_assoc, List.cons_append, List.nil_append,
    readKeyMark_blanks]

theorem readKey_key (m : Member) (rest : List Symbol) :
    readKey (m.key.before.text ++ m.key.core ++ rest) = .ok (m.name, rest) := by
  obtain ⟨text, hmark, hstring⟩ := m.exists_readKeyMark .none rest
  rw [Blanks.none, List.nil_append] at hmark
  rw [readKey, hmark, ok_bind, hstring]

theorem readMark_content (m : Member) (rest : List Symbol) :
    readMark ':' (m.content ++ rest) = .ok (m.value.before.text ++ (m.value.core ++ rest)) := by
  simp only [content, List.append_assoc, List.cons_append, readMark_colon_blanks]

theorem skipValue_content (m : Member) (hrest : Closed rest) :
    skipValue (m.value.before.text ++ (m.value.core ++ rest)) = .ok rest := by
  rw [skipValue, skipValueUpTo_blanks]
  refine m.valid.skipped _ rest ?_ hrest
  simp only [List.length_append]
  omega

theorem joinEntries_entries (members : List Member) :
    joinEntries (members.map entry) =
      [.char ','].intercalate (members.map fun m => m.text) := by
  simp [joinEntries, Function.comp_def, snd_entry]

end Member

-- ---------------------------------------------------------------------------
-- Values after blanks
-- ---------------------------------------------------------------------------

theorem Schema.read_blanks : {α : Type} → (schema : Schema α) → (gap : Blanks) →
    (input : List Symbol) → schema.read (gap.text ++ input) = schema.read input
  | _, .natural, gap, input | _, .integer, gap, input => by
    simp only [Schema.read, readNatural, readInt64, readInteger, skipBlanks_append gap.blank]
  | _, .boolean, gap, input => by
    simp only [Schema.read, readBoolean, skipBlanks_append gap.blank]
  | _, .text, gap, input => by simp only [Schema.read, readText, skipBlanks_append gap.blank]
  | _, .optional _, gap, input | _, .variants _, gap, input => by
    simp only [Schema.read, skipBlanks_append gap.blank]
  | _, .record _ _, gap, input => by
    simp only [Schema.read, readFrame, skipBlanks_append gap.blank]
  | _, .via _ _ _ inner, gap, input => by simp only [Schema.read, inner.read_blanks gap input]

-- ---------------------------------------------------------------------------
-- Members taken in by the fields of a record
-- ---------------------------------------------------------------------------

inductive Fills (fields : Fields α) : fields.Slots → List Member → fields.Slots → Prop
  | nil : Fills fields slots [] slots
  | cons (hvalue : Takes (fields.readEntry m.name slots) m.content slots₁)
      (hrest : Fills fields slots₁ members slots₂) : Fills fields slots (m :: members) slots₂

theorem Fills.entries {fields : Fields α} {slots slots' : fields.Slots}
    (h : Fills fields slots members slots') :
    Entries fields.readEntry slots (members.map Member.entry) slots' := by
  induction h with
  | nil => exact .nil
  | cons hvalue _ ih => exact .cons (Member.readKey_key _) hvalue (Blanks.blank _) ih

theorem Fields.readEntry_unknown : {α : Type} → (fields : Fields α) → (m : Member) →
    m.name ∉ fields.names → (slots : fields.Slots) →
    Takes (fields.readEntry m.name slots) m.content slots
  | _, .nil, m, _, () => by
    intro rest hrest
    simp [readEntry, m.readMark_content, m.skipValue_content hrest]
  | _, .cons name absent schema fields, m, hname, slots => by
    intro rest hrest
    obtain ⟨held, others⟩ := slots
    simp only [names, List.mem_cons, not_or] at hname
    have hothers := fields.readEntry_unknown m hname.2 others rest hrest
    simp [readEntry, Ne.symm hname.1, hothers]

section
variable {absent : Absent α} {schema : Schema α} {rest : Fields β} {slots slots' : rest.Slots}

theorem Fills.others (h : Fills rest slots members slots') (hne : ∀ m ∈ members, m.name ≠ field)
    (held : Option α) :
    Fills (.cons field absent schema rest) (held, slots) members (held, slots') := by
  induction h with
  | nil => exact .nil
  | cons hvalue _ ih =>
    rw [List.forall_mem_cons] at hne
    refine .cons (fun input hinput => ?_) (ih hne.2)
    simp [Fields.readEntry, Ne.symm hne.1, hvalue input hinput]

theorem Fills.insert (h : Fills rest slots members slots') (hfield : field ∉ rest.names)
    (hmembers : members.filter (·.name = field) = [m]) (hvalue : Takes schema.read m.value.core a) :
    Fills (.cons field absent schema rest) (none, slots) members (some a, slots') := by
  induction members generalizing slots with
  | nil => contradiction
  | cons m₀ members ih =>
    cases h with
    | cons htakes hrest =>
      by_cases hname : m₀.name = field
      · simp only [List.filter_cons, hname, decide_true, if_true, List.cons.injEq] at hmembers
        obtain ⟨rfl, hnone⟩ := hmembers
        have hunknown := rest.readEntry_unknown m₀ (hname ▸ hfield) slots [] closed_nil
        obtain ⟨rfl, -⟩ := Prod.mk.inj (Except.ok.inj (hunknown.symm.trans (htakes [] closed_nil)))
        have hne : ∀ m ∈ members, m.name ≠ field := by simpa using hnone
        refine .cons (fun input hinput => ?_) (hrest.others hne (some a))
        simp [Fields.readEntry, hname, m₀.readMark_content, Schema.read_blanks, hvalue input hinput]
      · simp only [List.filter_cons, hname, decide_false, Bool.false_eq_true, if_false] at hmembers
        refine .cons (fun input hinput => ?_) (ih hrest hmembers)
        simp [Fields.readEntry, Ne.symm hname, htakes input hinput]

end

end TokenGrammar.Json
