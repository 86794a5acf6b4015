import TokenGrammar.Proofs.Leniency

/-!
# Every value has a form

What stands for a value is a JSON value (`Schema.StandsFor.valid`), and the text that a value is
written as stands for it (`Schema.standsFor_write`). So no value is left out of what is said
about the forms of values.
-/

namespace TokenGrammar.Json

-- ---------------------------------------------------------------------------
-- Strings
-- ---------------------------------------------------------------------------

theorem hexDigit?_digitChar : ∀ d < 16, (Symbol.char d.digitChar).hexDigit? = some d := by decide

theorem Spells.escape (h : Spells units cs) (c : Char) :
    Spells (Symbol.ofText (escape c) ++ units) (c :: cs) := by
  unfold Json.escape
  split
  case h_8 hquote hbackslash _ _ _ _ _ =>
    split
    · next hcontrol =>
      have hcode := toList_codeEscape c.toNat hcontrol
      rw [Char.ofNat_toNat] at hcode
      have hzero : (Symbol.char '0').hexDigit? = some 0 := rfl
      have hdigits := IsCode.mk hzero hzero (hexDigit?_digitChar (c.toNat / 16) (by omega))
        (hexDigit?_digitChar (c.toNat % 16) (by omega))
      have hvalue : 16 * (16 * (16 * 0 + 0) + c.toNat / 16) + c.toNat % 16 = c.toNat := by omega
      rw [hvalue] at hdigits
      have hspells := Spells.code hdigits (by simp [isHighHalf]; omega)
        (by simp [isLowHalf]; omega) h
      rw [Char.ofNat_toNat] at hspells
      simpa [Symbol.ofText, hcode] using hspells
    · next hcontrol =>
      have hsingle : Symbol.ofText c.toString = [.char c] := by simp [Symbol.ofText, Char.toString]
      rw [hsingle]
      refine .plain ?_ h
      simp only [Symbol.isPlain, Bool.and_eq_true, decide_eq_true_eq]
      exact ⟨⟨hquote, hbackslash⟩, by omega⟩
  all_goals exact .short rfl h

theorem standsForText_writeText (s : String) :
    StandsForText (Symbol.ofText (writeText s)) s := by
  refine ⟨_, ofText_writeText s, ?_⟩
  induction s.toList with
  | nil => exact .nil
  | cons c cs ih => exact ih.escape c

theorem Spells.isUnits (h : Spells units cs) : IsUnits units := by
  induction h with
  | nil => exact .nil
  | plain hplain _ ih => exact .plain hplain ih
  | short hshort _ ih => exact .short (by rw [hshort]; rfl) ih
  | code hcode _ _ _ ih => exact .code hcode ih
  | pair hcode _ hcode' _ _ ih => exact .code hcode (.code hcode' ih)

theorem StandsForText.valid (h : StandsForText core s) : Valid core := by
  obtain ⟨units, rfl, hunits⟩ := h
  exact .string hunits.isUnits

-- ---------------------------------------------------------------------------
-- Numbers
-- ---------------------------------------------------------------------------

theorem isWhole_toString (n : Nat) : IsWhole (Symbol.ofText (toString n)) := by
  rw [ofText_toString]
  refine ⟨⟨by simp [Nat.toDigits_ne_nil], ?_⟩, fun hhead => ?_⟩
  · intro s hs
    obtain ⟨c, hc, rfl⟩ := List.mem_map.1 hs
    have hdigit := Nat.isDigit_of_mem_toDigits (by decide) (by decide) hc
    simp [Symbol.digit?, digit?_of_isDigit hdigit]
  · obtain ⟨c, cs, hcs⟩ := List.exists_cons_of_ne_nil (Nat.toDigits_ne_nil (n := n) (b := 10))
    rw [hcs] at hhead
    obtain rfl : c = '0' := by simpa using hhead
    have hdigits : digitsOf n = 0 :: cs.map (·.toNat - '0'.toNat) := by rw [digitsOf, hcs]; rfl
    have hnil := digitsOf_zero_cons hdigits
    simp [hcs, List.map_eq_nil_iff.1 hnil]

theorem valid_number (sign : List Symbol) (hsign : sign ∈ [[], [.char '-']]) (n : Nat) :
    Valid (sign ++ Symbol.ofText (toString n)) := by
  have hnumber := IsNumber.mk hsign (isWhole_toString n) .absent .absent
  simpa using Valid.number hnumber

theorem valid_integer (i : Int) : Valid (Symbol.ofText (toString i)) := by
  by_cases h : i < 0
  · rw [toString_of_neg h, Symbol.ofText_append]
    exact valid_number _ (by simp [Symbol.ofText]) _
  · rw [toString_of_nonneg (by omega)]
    exact valid_number [] (by simp) i.toNat

-- ---------------------------------------------------------------------------
-- What stands for a value is a value
-- ---------------------------------------------------------------------------

theorem Member.valid_object (gap : Blanks) (members : List Member) :
    Valid (objectText gap (members.map Member.toPair)) := by
  refine .object gap ?_ ?_
  · intro pair hpair
    obtain ⟨m, -, rfl⟩ := List.mem_map.1 hpair
    obtain ⟨units, hkey, hunits⟩ := m.spelled
    exact ⟨units, hunits.isUnits, hkey⟩
  · intro pair hpair
    obtain ⟨m, -, rfl⟩ := List.mem_map.1 hpair
    exact m.valid

theorem Cases.StandsFor.valid : {α : Type} → (cases : Cases α) → {a : α} →
    cases.StandsFor core a → Valid core
  | _, .unit _ _, .inl (), h => by
    obtain htext | ⟨gap, m, -, -, rfl⟩ := h
    · exact htext.valid
    · exact Member.valid_object gap [m]
  | _, .unit _ rest, .inr _, h => valid rest h
  | _, .record .., .inl _, h => by
    obtain ⟨gap, m, -, -, rfl⟩ := h
    exact Member.valid_object gap [m]
  | _, .record _ _ _ rest, .inr _, h => valid rest h

mutual

theorem Schema.StandsFor.valid : {α : Type} → (schema : Schema α) → {a : α} →
    {core : List Symbol} → schema.StandsFor core a → Valid core
  | _, .natural, n, _, h => by
    obtain ⟨-, rfl⟩ := h
    exact valid_number [] (by simp) n
  | _, .integer, n, _, h => by
    obtain rfl := h
    exact valid_integer n.toInt
  | _, .boolean, b, _, h => by
    obtain rfl := h
    exact .boolean b
  | _, .text, _, _, h => StandsForText.valid h
  | _, .optional _, none, _, h => by
    obtain rfl := h
    exact .null
  | _, .optional inner, some _, _, h => Schema.StandsFor.valid inner h
  | _, .record _ fields, a, _, h => by
    obtain ⟨gap, items, hlisted, rfl⟩ | ⟨gap, members, -, rfl⟩ := h
    · exact .array gap (Fields.Listed.valid fields hlisted)
    · exact Member.valid_object gap members
  | _, .variants cases, _, _, h => Cases.StandsFor.valid cases h
  | _, .via _ _ _ inner, _, _, h => Schema.StandsFor.valid inner h

theorem Fields.Listed.valid : {α : Type} → (fields : Fields α) → {a : α} →
    {items : List Spaced} → fields.Listed items a → ∀ item ∈ items, Valid item.core
  | _, .nil, (), items, h => by
    obtain rfl : items = [] := h
    simp
  | _, .cons .., _, [], h => h.elim
  | _, .cons _ _ schema rest, (a, b), item :: items, h => by
    obtain ⟨hitem, hitems⟩ := h
    exact List.forall_mem_cons.2
      ⟨Schema.StandsFor.valid schema hitem, Fields.Listed.valid rest hitems⟩

end

-- ---------------------------------------------------------------------------
-- What a value is written as
-- ---------------------------------------------------------------------------

theorem ofText_writeObject (entries : List String) : Symbol.ofText (writeObject entries) =
    .char '\x7b' :: ([.char ','].intercalate (entries.map Symbol.ofText) ++ [.char '\x7d']) := by
  have hentries : Symbol.ofText (",".intercalate entries) =
      [.char ','].intercalate (entries.map Symbol.ofText) := by
    induction entries with
    | nil => rfl
    | cons entry entries ih =>
      cases entries with
      | nil => simp
      | cons next entries =>
        rw [String.intercalate_cons_cons, Symbol.ofText_append, Symbol.ofText_append, ih]
        simp only [List.map_cons, List.intercalate_cons_cons]
        rfl
  rw [writeObject, Symbol.ofText_append, Symbol.ofText_append, hentries]
  rfl

theorem ofText_writeEntry (name value : String) : Symbol.ofText (writeEntry name value) =
    Symbol.ofText (writeText name) ++ .char ':' :: Symbol.ofText value := by
  simp [writeEntry]
  rfl

def Member.written (name value : String) (hvalue : Valid (Symbol.ofText value)) : Member where
  key := .tight (Symbol.ofText (writeText name))
  value := .tight (Symbol.ofText value)
  name := name
  spelled := standsForText_writeText name
  valid := hvalue

theorem Member.text_written (name value : String) (hvalue : Valid (Symbol.ofText value)) :
    (written name value hvalue).text = Symbol.ofText (writeEntry name value) := by
  simp [Pair.text, written, ofText_writeEntry]

theorem Holds.cons {m : Member} (h : Holds stands absent field members a) (hm : m.name ≠ field) :
    Holds stands absent field (m :: members) a := by
  simpa [Holds, List.filter_cons, hm] using h

theorem Fields.Given.cons : {α : Type} → (fields : Fields α) → {m : Member} →
    m.name ∉ fields.names → {members : List Member} → {a : α} → fields.Given members a →
    fields.Given (m :: members) a
  | _, .nil, _, _, _, _, _ => trivial
  | _, .cons _ _ _ rest, m, hm, _, (_, _), h => by
    simp only [names, List.mem_cons, not_or] at hm
    exact ⟨h.1.cons hm.1, Fields.Given.cons rest hm.2 h.2⟩

def Fields.GivenAsWritten (fields : Fields α) (a : α) : Prop :=
  ∃ members : List Member, members.map (·.name) = fields.names ∧
    members.map (fun m => m.text) = (fields.write a).map Symbol.ofText ∧ fields.Given members a

theorem Fields.GivenAsWritten.isRecord {fields : Fields α} (h : fields.GivenAsWritten a) :
    IsRecord (fields.Listed · a) (fields.Given · a)
      (Symbol.ofText (writeObject (fields.write a))) := by
  obtain ⟨members, -, htexts, hgiven⟩ := h
  refine .inr ⟨.none, members, hgiven, ?_⟩
  rw [ofText_writeObject, ← htexts]
  simp [objectText, Blanks.none, Function.comp_def]

mutual

theorem Schema.standsFor_write : {α : Type} → (schema : Schema α) → schema.wellFormed = true →
    (a : α) → schema.fits a → schema.StandsFor (Symbol.ofText (schema.write a)) a
  | _, .natural, _, n, hfits => ⟨of_decide_eq_true hfits, rfl⟩
  | _, .integer, _, n, _ => rfl
  | _, .boolean, _, b, _ => rfl
  | _, .text, _, s, _ => standsForText_writeText s
  | _, .optional _, _, none, _ => rfl
  | _, .optional inner, hschema, some a, hfits => by
    simp only [Schema.wellFormed, Bool.and_eq_true, Bool.not_eq_true'] at hschema
    exact inner.standsFor_write hschema.2 a hfits
  | _, .record _ fields, hschema, a, hfits => (fields.givenAsWritten hschema a hfits).isRecord
  | _, .variants cases, hschema, a, hfits => cases.standsFor_write hschema a hfits
  | _, .via _ back _ inner, hschema, b, hfits => inner.standsFor_write hschema (back b) hfits

theorem Fields.givenAsWritten : {α : Type} → (fields : Fields α) → fields.wellFormed = true →
    (a : α) → fields.fits a → fields.GivenAsWritten a
  | _, .nil, _, (), _ => ⟨[], rfl, rfl, trivial⟩
  | _, .cons name absent schema rest, hfields, (a, b), hfits => by
    simp only [Fields.wellFormed, Bool.and_eq_true, Bool.not_eq_true', List.contains_eq_mem,
      decide_eq_false_iff_not] at hfields
    obtain ⟨⟨hname, hschema⟩, hrest⟩ := hfields
    obtain ⟨ha, hb⟩ := Bool.and_eq_true_iff.1 hfits
    have hvalue := schema.standsFor_write hschema a ha
    obtain ⟨members, hnames, htexts, hgiven⟩ := rest.givenAsWritten hrest b hb
    have hothers : members.filter (·.name = name) = [] := by
      rw [← hnames] at hname
      simpa using hname
    let m := Member.written name (schema.write a) (Schema.StandsFor.valid schema hvalue)
    refine ⟨m :: members, ?_, ?_, .inl ⟨m, ?_, hvalue⟩, Fields.Given.cons rest hname hgiven⟩
    · rw [List.map_cons, hnames]
      rfl
    · rw [List.map_cons, htexts, Member.text_written]
      rfl
    · simp [m, Member.written, hothers]

theorem Cases.standsFor_write : {α : Type} → (cases : Cases α) → cases.wellFormed = true →
    (a : α) → cases.fits a → cases.StandsFor (Symbol.ofText (cases.write a)) a
  | _, .unit name _, _, .inl (), _ => .inl (standsForText_writeText name)
  | _, .unit _ rest, hcases, .inr b, hfits => by
    simp only [Cases.wellFormed, Bool.and_eq_true] at hcases
    exact rest.standsFor_write hcases.2 b hfits
  | _, .record name expected fields rest, hcases, .inl a, hfits => by
    simp only [Cases.wellFormed, Bool.and_eq_true] at hcases
    have hrecord := (fields.givenAsWritten hcases.1.2 a hfits).isRecord
    have hvalid := Schema.StandsFor.valid (.record expected fields) hrecord
    refine ⟨.none, .written name (writeObject (fields.write a)) hvalid, rfl, hrecord, ?_⟩
    rw [Cases.write, ofText_writeObject, List.map_singleton, ← Member.text_written name _ hvalid]
    simp [objectText, Blanks.none]
  | _, .record _ _ _ rest, hcases, .inr b, hfits => by
    simp only [Cases.wellFormed, Bool.and_eq_true] at hcases
    exact rest.standsFor_write hcases.2 b hfits

end

theorem Fields.exists_listed : {α : Type} → (fields : Fields α) → fields.wellFormed = true →
    (a : α) → fields.fits a → ∃ items, fields.Listed items a
  | _, .nil, _, (), _ => ⟨[], rfl⟩
  | _, .cons _ _ schema rest, hfields, (a, b), hfits => by
    simp only [wellFormed, Bool.and_eq_true] at hfields
    obtain ⟨ha, hb⟩ := Bool.and_eq_true_iff.1 hfits
    obtain ⟨items, hitems⟩ := rest.exists_listed hfields.2 b hb
    exact ⟨.tight _ :: items, schema.standsFor_write hfields.1.2 a ha, hitems⟩

end TokenGrammar.Json
