import TokenGrammar.Proofs.Members

/-!
# Values in any of their forms

Which JSON values stand for a value of a schema (`Schema.StandsFor`): a record is the array of
its fields in order, or an object with a member for each field, in any order, with blanks and
unknown members anywhere. All of them are read as that value (`Schema.takes_standsFor`), and a
whole text with blanks around it is decoded as the value it stands for (`Schema.decodes`).
-/

namespace TokenGrammar.Json

-- ---------------------------------------------------------------------------
-- Texts of a value
-- ---------------------------------------------------------------------------

/-- Whether a field of an object has the value `a`: its only member stands for it, or there is
none and the field may be left out. -/
def Holds (stands : List Symbol → α → Prop) (absent : Option α) (field : String)
    (members : List Member) (a : α) : Prop :=
  (∃ m, members.filter (·.name = field) = [m] ∧ stands m.value.core a) ∨
    members.filter (·.name = field) = [] ∧ absent = some a

def IsRecord (listed : List Spaced → Prop) (given : List Member → Prop)
    (text : List Symbol) : Prop :=
  (∃ gap items, listed items ∧ text = arrayText gap items) ∨
    ∃ gap members, given members ∧ text = objectText gap (members.map Member.toPair)

mutual

/-- Whether a text stands for a value, without blanks around it. -/
def Schema.StandsFor : {α : Type} → Schema α → List Symbol → α → Prop
  | _, .natural, text, n => n < UInt64.size ∧ text = Symbol.ofText (toString n)
  | _, .integer, text, n => text = Symbol.ofText (toString n.toInt)
  | _, .boolean, text, b => text = Symbol.ofText (if b then "true" else "false")
  | _, .text, text, s => StandsForText text s
  | _, .optional _, text, none => text = Symbol.ofText "null"
  | _, .optional inner, text, some a => inner.StandsFor text a
  | _, .record _ fields, text, a => IsRecord (fields.Listed · a) (fields.Given · a) text
  | _, .variants cases, text, a => cases.StandsFor text a
  | _, .via _ back _ inner, text, b => inner.StandsFor text (back b)

def Fields.Listed : {α : Type} → Fields α → List Spaced → α → Prop
  | _, .nil, items, () => items = []
  | _, .cons .., [], _ => False
  | _, .cons _ _ schema rest, item :: items, (a, b) =>
    schema.StandsFor item.core a ∧ rest.Listed items b

def Fields.Given : {α : Type} → Fields α → List Member → α → Prop
  | _, .nil, _, () => True
  | _, .cons name absent schema rest, members, (a, b) =>
    Holds schema.StandsFor absent.inObject name members a ∧ rest.Given members b

def Cases.StandsFor : {α : Type} → Cases α → List Symbol → α → Prop
  | _, .unit name _, text, .inl () => StandsForText text name ∨
    ∃ gap, ∃ m : Member, m.name = name ∧ m.value.core = Symbol.ofText "null" ∧
      text = objectText gap [m.toPair]
  | _, .unit _ rest, text, .inr b => rest.StandsFor text b
  | _, .record name _ fields _, text, .inl a =>
    ∃ gap, ∃ m : Member, m.name = name ∧
      IsRecord (fields.Listed · a) (fields.Given · a) m.value.core ∧
      text = objectText gap [m.toPair]
  | _, .record _ _ _ rest, text, .inr b => rest.StandsFor text b

end

theorem StandsForText.exists_cons (h : StandsForText text s) :
    ∃ tail, text = .char '"' :: tail := by
  obtain ⟨units, rfl, -⟩ := h
  exact ⟨_, rfl⟩

theorem IsRecord.exists_cons (h : IsRecord listed given text) :
    ∃ s tail, text = s :: tail ∧ (s = .char '[' ∨ s = .char '\x7b') := by
  obtain ⟨gap, items, -, rfl⟩ | ⟨gap, members, -, rfl⟩ := h
  · exact ⟨_, _, rfl, .inl rfl⟩
  · exact ⟨_, _, rfl, .inr rfl⟩

theorem Cases.StandsFor.exists_cons : {α : Type} → (cases : Cases α) → {a : α} →
    cases.StandsFor text a →
    ∃ s tail, text = s :: tail ∧ (s = .char '"' ∨ s = .char '\x7b')
  | _, .unit _ _, .inl (), h => by
    obtain htext | ⟨gap, m, -, -, rfl⟩ := h
    · obtain ⟨tail, rfl⟩ := htext.exists_cons
      exact ⟨_, tail, rfl, .inl rfl⟩
    · exact ⟨_, _, rfl, .inr rfl⟩
  | _, .unit _ rest, .inr _, h => exists_cons rest h
  | _, .record .., .inl _, h => by
    obtain ⟨gap, m, -, -, rfl⟩ := h
    exact ⟨_, _, rfl, .inr rfl⟩
  | _, .record _ _ _ rest, .inr _, h => exists_cons rest h

theorem Schema.StandsFor.exists_cons : {α : Type} → (schema : Schema α) → {a : α} →
    schema.StandsFor core a →
    ∃ s tail, core = s :: tail ∧ s.isBlank = false ∧ s ≠ .char ']' ∧
      (s = .char 'n' → schema.nullable = true)
  | _, .natural, n, ⟨_, h⟩ => by
    obtain ⟨s, tail, htext, hstarts⟩ := exists_starts_natural n
    refine ⟨s, tail, h.trans htext, isBlank_of_starts hstarts, ?_, ?_⟩ <;> rintro rfl <;>
      contradiction
  | _, .integer, n, h => by
    obtain ⟨s, tail, htext, hstarts⟩ := exists_starts_integer n.toInt
    refine ⟨s, tail, Eq.trans h htext, isBlank_of_starts hstarts, ?_, ?_⟩ <;> rintro rfl <;>
      contradiction
  | _, .boolean, true, h => ⟨_, _, h, rfl, by decide, by decide⟩
  | _, .boolean, false, h => ⟨_, _, h, rfl, by decide, by decide⟩
  | _, .text, _, h => by
    obtain ⟨tail, rfl⟩ := StandsForText.exists_cons h
    exact ⟨_, tail, rfl, rfl, by decide, by decide⟩
  | _, .optional _, none, h => ⟨_, _, h, rfl, by decide, fun _ => rfl⟩
  | _, .optional inner, some a, h => by
    obtain ⟨s, tail, htext, hblank, hs, -⟩ := exists_cons inner h
    exact ⟨s, tail, htext, hblank, hs, fun _ => rfl⟩
  | _, .record _ _, _, h => by
    obtain ⟨s, tail, htext, rfl | rfl⟩ := IsRecord.exists_cons h
    · exact ⟨_, tail, htext, rfl, by simp, by simp⟩
    · exact ⟨_, tail, htext, rfl, by simp, by simp⟩
  | _, .variants cases, _, h => by
    obtain ⟨s, tail, htext, rfl | rfl⟩ := Cases.StandsFor.exists_cons cases h
    · exact ⟨_, tail, htext, rfl, by simp, by simp⟩
    · exact ⟨_, tail, htext, rfl, by simp, by simp⟩
  | _, .via _ _ _ inner, _, h => exists_cons inner h

-- ---------------------------------------------------------------------------
-- Records
-- ---------------------------------------------------------------------------

def Fields.TakesValues : {α : Type} → Fields α → Prop
  | _, .nil => True
  | _, .cons _ _ schema rest =>
    (∀ text a, schema.StandsFor text a → Takes schema.read text a) ∧ rest.TakesValues

theorem Fields.fills_nil (members : List Member) : Fills .nil () members () := by
  induction members with
  | nil => exact .nil
  | cons m members ih => exact .cons (Fields.nil.readEntry_unknown m List.not_mem_nil ()) ih

theorem Fields.exists_fills : {α : Type} → (fields : Fields α) → fields.wellFormed = true →
    fields.TakesValues → {members : List Member} → {a : α} → fields.Given members a →
    ∃ slots, Fills fields fields.emptySlots members slots ∧ fields.finish slots = .ok a
  | _, .nil, _, _, members, (), _ => ⟨(), fills_nil members, rfl⟩
  | _, .cons name absent schema rest, hfields, htakes, members, (a, b), hgiven => by
    obtain ⟨hheld, hgiven⟩ := hgiven
    simp only [wellFormed, Bool.and_eq_true, Bool.not_eq_true', List.contains_eq_mem,
      decide_eq_false_iff_not] at hfields
    obtain ⟨slots, hfills, hfinish⟩ := rest.exists_fills hfields.2 htakes.2 hgiven
    obtain ⟨m, hm, hvalue⟩ | ⟨hnone, habsent⟩ := hheld
    · refine ⟨(some a, slots), hfills.insert hfields.1.1 hm (htakes.1 _ a hvalue), ?_⟩
      simp [finish, hfinish]
    · have hne : ∀ m ∈ members, m.name ≠ name := by simpa using hnone
      refine ⟨(none, slots), hfills.others hne none, ?_⟩
      simp [finish, habsent, hfinish]

theorem readNextItem_first (hinput : skipBlanks input = s :: tail) (hs : s ≠ .char ']') :
    readNextItem true input = .ok (true, s :: tail) := by
  unfold readNextItem
  rw [hinput]
  split
  · contradiction
  · next heq => exact absurd (List.cons.inj heq).1 hs
  · next heq => exact congrArg (fun input => Except.ok (true, input)) heq.symm
  · rfl

theorem readNextItem_later (hinput : skipBlanks input = .char ',' :: text)
    (htext : skipBlanks text = s :: tail) (hs : s ≠ .char ']') :
    readNextItem false input = .ok (true, s :: tail) := by
  unfold readNextItem
  rw [hinput]
  simp only [Bool.false_eq_true, if_false, htext]
  split
  · contradiction
  · next heq => exact absurd (List.cons.inj heq).1 hs
  · rfl

def laterItems (items : List Spaced) (rest : List Symbol) : List Symbol :=
  (items.map Spaced.text).flatMap (.char ',' :: ·) ++ .char ']' :: rest

namespace Fields

def ReadsItems (fields : Fields α) (expected : String) (length before : Nat)
    (input : List Symbol) (a : α) (rest : List Symbol) : Prop :=
  ∃ mid, fields.readItems expected length before input = .ok (a, mid) ∧
    readMark ']' mid = .ok rest

section
variable {expected : String} {length before : Nat}

theorem readsItems_nil (gap : Blanks) (rest : List Symbol) :
    nil.ReadsItems expected length before (gap.text ++ .char ']' :: rest) () rest := by
  refine ⟨_, rfl, ?_⟩
  rw [readMark, skipBlanks_append gap.blank]
  rfl

theorem readsItems_cons {fields : Fields β} {schema : Schema α} {item : Spaced}
    (hvalue : Takes schema.read item.core a)
    (hnext : readNextItem (before == 0) input =
      .ok (true, item.core ++ (item.after.text ++ laterItems items rest)))
    (hlater : fields.ReadsItems expected length (before + 1)
      (item.after.text ++ laterItems items rest) b rest) :
    (cons name absent schema fields).ReadsItems expected length before input (a, b) rest := by
  obtain ⟨mid, hread, hmid⟩ := hlater
  have hclosed : Closed (laterItems items rest) := closed_later _ rfl rest
  have hitem := hvalue _ (hclosed.blanks_append item.after.blank)
  exact ⟨mid, by simp [readItems, hnext, hitem, hread], hmid⟩

end

theorem readsItems_later : {α : Type} → (fields : Fields α) → fields.TakesValues →
    {before : Nat} → before ≠ 0 → {items : List Spaced} → {a : α} → fields.Listed items a →
    (expected : String) → (length : Nat) → (gap : Blanks) → (rest : List Symbol) →
    fields.ReadsItems expected length before (gap.text ++ laterItems items rest) a rest
  | _, .nil, _, _, _, items, (), hlisted, _, _, gap, rest => by
    obtain rfl : items = [] := hlisted
    exact readsItems_nil gap rest
  | _, .cons .., _, _, _, [], _, hlisted, _, _, _, _ => hlisted.elim
  | _, .cons _ _ schema fields, htakes, before, hbefore, item :: items, (a, b), hlisted,
      expected, length, gap, rest => by
    obtain ⟨hitem, hlisted⟩ := hlisted
    obtain ⟨s, tail, hcore, hblank, hs, -⟩ := Schema.StandsFor.exists_cons schema hitem
    refine readsItems_cons (htakes.1 item.core a hitem) ?_
      (fields.readsItems_later htakes.2 (Nat.succ_ne_zero before) hlisted expected length
        item.after rest)
    have hstart := item.skipBlanks_text hcore hblank (laterItems items rest)
    rw [hcore] at hstart ⊢
    rw [beq_false_of_ne hbefore]
    refine readNextItem_later ?_ hstart hs
    simp only [laterItems, List.map_cons, List.flatMap_cons, List.cons_append, List.append_assoc]
    rw [skipBlanks_append gap.blank, skipBlanks_cons_of_not_blank rfl]

theorem readsItems_listed (fields : Fields α) (htakes : fields.TakesValues) {items : List Spaced}
    (hlisted : fields.Listed items a) (expected : String) (length : Nat) (gap : Blanks)
    (rest : List Symbol) :
    fields.ReadsItems expected length 0
      (gap.text ++ ([.char ','].intercalate (items.map Spaced.text) ++ .char ']' :: rest)) a
      rest := by
  cases fields with
  | nil =>
    obtain rfl : items = [] := hlisted
    exact readsItems_nil gap rest
  | cons name absent schema fields =>
    obtain ⟨a, b⟩ := a
    cases items with
    | nil => exact hlisted.elim
    | cons item items =>
      obtain ⟨hitem, hlisted⟩ := hlisted
      obtain ⟨s, tail, hcore, hblank, hs, -⟩ := Schema.StandsFor.exists_cons schema hitem
      refine readsItems_cons (htakes.1 item.core a hitem) ?_
        (fields.readsItems_later htakes.2 (Nat.succ_ne_zero 0) hlisted expected length item.after
          rest)
      have hstart := item.skipBlanks_text hcore hblank (laterItems items rest)
      rw [hcore] at hstart ⊢
      refine readNextItem_first ?_ hs
      rw [skipBlanks_append gap.blank, List.map_cons, intercalate_comma_cons, List.append_assoc]
      exact hstart

end Fields

theorem IsRecord.takes (fields : Fields α) (hfields : fields.wellFormed = true)
    (htakes : fields.TakesValues) (h : IsRecord (fields.Listed · a) (fields.Given · a) text)
    (expected : String) :
    Takes (readFrame expected (fields.readItems expected fields.length 0) fields.readObject)
      text a := by
  obtain ⟨gap, items, hlisted, rfl⟩ | ⟨gap, members, hgiven, rfl⟩ := h
  · intro rest _
    obtain ⟨mid, hread, hmid⟩ := fields.readsItems_listed htakes hlisted expected fields.length
      gap rest
    simp [arrayText, readFrame, Symbol.isBlank, hread, hmid]
  · obtain ⟨slots, hfills, hfinish⟩ := fields.exists_fills hfields htakes hgiven
    have htext : objectText gap (members.map Member.toPair) = .char '\x7b' ::
        (gap.text ++ (joinEntries (members.map Member.entry) ++ [.char '\x7d'])) := by
      rw [Member.joinEntries_entries, objectText, List.map_map]
      rfl
    rw [htext]
    exact hfills.entries.takes hfinish gap.blank _

-- ---------------------------------------------------------------------------
-- Variants
-- ---------------------------------------------------------------------------

/-- Whether a text is read as the case `a` by its name: a name that stands alone, or an object
with the name as its only key. -/
inductive ReadsAs (core : List Symbol) (name : String) (ofName : Except Problem α)
    (content : Reader α) (a : α) : Prop
  | alone (htext : StandsForText core name) (hname : ofName = .ok a)
  | within (gap : Blanks) (m : Member) (hm : m.name = name)
      (htext : core = objectText gap [m.toPair]) (hcontent : Takes content m.content a)

theorem ReadsAs.inr {content : Reader β} (h : ReadsAs core name ofName content b) :
    ReadsAs core name ((.inr : β → α ⊕ β) <$> ofName)
      (fun input => do let (b, rest) ← content input; return (.inr b, rest)) (.inr b) := by
  cases h with
  | alone htext hname => exact .alone htext (by rw [hname, map_ok])
  | within gap m hm htext hcontent =>
    refine .within gap m hm htext fun input hinput => ?_
    rw [hcontent input hinput]
    rfl

theorem ReadsAs.takes {cases : Cases α} (h : ReadsAs core name
      (cases.ofName? cases.names name) (cases.readContent cases.names name) a) :
    Takes (Schema.variants cases).read core a := by
  intro rest _
  simp only [Schema.read]
  cases h with
  | alone htext hname =>
    obtain ⟨units, rfl, hunits⟩ := htext
    simp [quoted, Symbol.isBlank, hunits.readString, hname]
  | within gap m hm htext hcontent =>
    obtain ⟨text, hmark, hkey⟩ := m.exists_readKeyMark gap
      (m.content ++ (m.value.after.text ++ .char '\x7d' :: rest))
    have hclose : readMark '\x7d' (m.value.after.text ++ .char '\x7d' :: rest) = .ok rest := by
      rw [readMark, skipBlanks_append m.value.after.blank]
      rfl
    have hvalue := hcontent (m.value.after.text ++ .char '\x7d' :: rest)
      ((closed_cons.2 rfl).blanks_append m.value.after.blank)
    have htext' : core ++ rest = .char '\x7b' :: (gap.text ++ (m.key.before.text ++ m.key.core ++
        (m.content ++ (m.value.after.text ++ .char '\x7d' :: rest)))) := by
      rw [htext, objectText, List.map_singleton, List.intercalate_singleton, ← m.snd_entry]
      simp [Member.entry]
    rw [hm] at hkey
    rw [htext', skipBlanks_cons_of_not_blank rfl]
    simp only [hmark, hkey, hvalue, hclose, ok_bind, pure_eq_ok]

theorem readNull_null (gap : Blanks) (expected : String) (rest : List Symbol) :
    readNull expected (gap.text ++ (Symbol.ofText "null" ++ rest)) = .ok rest := by
  rw [readNull, skipBlanks_append gap.blank]
  rfl

theorem readFrame_blanks (gap : Blanks) (expected : String) (items entries : Reader α)
    (input : List Symbol) :
    readFrame expected items entries (gap.text ++ input) =
      readFrame expected items entries input := by
  simp only [readFrame, skipBlanks_append gap.blank]

-- ---------------------------------------------------------------------------
-- All schemas
-- ---------------------------------------------------------------------------

theorem Schema.takes_present {inner : Schema α} (hcore : core = s :: tail)
    (hblank : s.isBlank = false) (hnull : s ≠ .char 'n') (h : Takes inner.read core a) :
    Takes inner.optional.read core (some a) := by
  intro rest hrest
  have hread := h rest hrest
  simp only [Schema.read]
  rw [hcore] at hread ⊢
  rw [List.cons_append, skipBlanks_cons_of_not_blank hblank]
  split
  · next heq => exact absurd (List.cons.inj heq).1 hnull
  · rw [← List.cons_append, hread]
    rfl

-- By recursion on the schema. As for what is written, each text is read from the front of a
-- longer one.
mutual

theorem Schema.takes_standsFor : {α : Type} → (schema : Schema α) → schema.wellFormed = true →
    (core : List Symbol) → (a : α) → schema.StandsFor core a → Takes schema.read core a
  | _, .natural, _, _, n, h => by
    obtain ⟨hfits, rfl⟩ := h
    exact fun rest hrest => readNatural_append hfits hrest
  | _, .integer, _, _, n, h => by
    obtain rfl := h
    exact fun rest hrest => readInt64_append n hrest
  | _, .boolean, _, _, b, h => by
    obtain rfl := h
    cases b <;> exact fun rest _ => rfl
  | _, .text, _, _, s, h => by
    obtain ⟨units, rfl, hunits⟩ := h
    intro rest _
    simp [Schema.read, readText, quoted, Symbol.isBlank, hunits.readString]
  | _, .optional _, _, _, none, h => by
    obtain rfl := h
    intro rest _
    simp only [Schema.read]
    rfl
  | _, .optional inner, hschema, core, some a, h => by
    simp only [Schema.wellFormed, Bool.and_eq_true, Bool.not_eq_true'] at hschema
    obtain ⟨s, tail, hcore, hblank, -, hnull⟩ := Schema.StandsFor.exists_cons inner h
    refine Schema.takes_present hcore hblank (fun hs => ?_)
      (inner.takes_standsFor hschema.2 core a h)
    have hn := hnull hs
    rw [hschema.1] at hn
    contradiction
  | _, .record expected fields, hschema, _, a, h =>
    IsRecord.takes fields hschema (fields.takesValues hschema) h expected
  | _, .variants cases, hschema, _, a, h => by
    obtain ⟨name, -, hcase⟩ := cases.readsAs hschema a h cases.names
    exact hcase.takes
  | _, .via forth back forth_back inner, hschema, core, b, h => by
    intro rest hrest
    have hread := inner.takes_standsFor hschema core (back b) h rest hrest
    simp [Schema.read, hread, forth_back]

theorem Fields.takesValues : {α : Type} → (fields : Fields α) → fields.wellFormed = true →
    fields.TakesValues
  | _, .nil, _ => trivial
  | _, .cons _ _ schema rest, hfields => by
    simp only [Fields.wellFormed, Bool.and_eq_true] at hfields
    exact ⟨schema.takes_standsFor hfields.1.2, rest.takesValues hfields.2⟩

theorem Cases.readsAs : {α : Type} → (cases : Cases α) → cases.wellFormed = true → (a : α) →
    {core : List Symbol} → cases.StandsFor core a → (known : List String) →
    ∃ name ∈ cases.names, ReadsAs core name (cases.ofName? known name)
      (cases.readContent known name) a
  | _, .unit name _, _, .inl (), _, h, known => by
    refine ⟨name, List.mem_cons_self, ?_⟩
    obtain htext | ⟨gap, m, hm, hnull, htext⟩ := h
    · exact .alone htext (if_pos rfl)
    · refine .within gap m hm htext fun input _ => ?_
      simp only [Cases.readContent, if_pos, m.readMark_content, hnull, ok_bind, readNull_null,
        pure_eq_ok]
  | _, .unit n rest, hcases, .inr b, _, h, known => by
    simp only [Cases.wellFormed, Bool.and_eq_true, Bool.not_eq_true', List.contains_eq_mem,
      decide_eq_false_iff_not] at hcases
    obtain ⟨name, hmem, hcase⟩ := rest.readsAs hcases.2 b h known
    have hne : n ≠ name := by rintro rfl; exact hcases.1 hmem
    refine ⟨name, List.mem_cons_of_mem _ hmem, ?_⟩
    simp only [Cases.ofName?, Cases.readContent, if_neg hne]
    exact hcase.inr
  | _, .record name expected fields rest, hcases, .inl a, _, h, known => by
    simp only [Cases.wellFormed, Bool.and_eq_true] at hcases
    obtain ⟨gap, m, hm, hrecord, htext⟩ := h
    have htakes := hrecord.takes fields hcases.1.2 (fields.takesValues hcases.1.2) expected
    refine ⟨name, List.mem_cons_self, .within gap m hm htext fun input hinput => ?_⟩
    simp only [Cases.readContent, if_pos, m.readMark_content, ok_bind, readFrame_blanks]
    change (do
      let (a, rest) ← readFrame expected _ fields.readObject _
      return (Sum.inl a, rest)) = _
    rw [htakes input hinput]
    rfl
  | _, .record n _ _ rest, hcases, .inr b, _, h, known => by
    simp only [Cases.wellFormed, Bool.and_eq_true, Bool.not_eq_true', List.contains_eq_mem,
      decide_eq_false_iff_not] at hcases
    obtain ⟨name, hmem, hcase⟩ := rest.readsAs hcases.2 b h known
    have hne : n ≠ name := by rintro rfl; exact hcases.1.1 hmem
    refine ⟨name, List.mem_cons_of_mem _ hmem, ?_⟩
    simp only [Cases.ofName?, Cases.readContent, if_neg hne]
    exact hcase.inr

end

-- ---------------------------------------------------------------------------
-- Whole texts
-- ---------------------------------------------------------------------------

def Surrounds (written : String) (core : List Symbol) : Prop :=
  ∃ part : Spaced, part.core = core ∧ Symbol.ofText written = part.text

theorem Schema.decodes (schema : Schema α) (hschema : schema.wellFormed = true)
    (h : schema.StandsFor core a) (htext : Surrounds written core) :
    schema.ofText? written = .ok a := by
  obtain ⟨part, rfl, htext⟩ := htext
  have hclosed : Closed part.after.text := by
    simpa using closed_nil.blanks_append part.after.blank
  have hread := schema.takes_standsFor hschema part.core a h part.after.text hclosed
  have hend : skipBlanks part.after.text = [] := by
    simpa [skipBlanks] using skipBlanks_append part.after.blank []
  rw [ofText?, decode, htext, Spaced.text, List.append_assoc, schema.read_blanks, hread, ok_bind]
  simp [hend]

end TokenGrammar.Json
