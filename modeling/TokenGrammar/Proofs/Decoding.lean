import TokenGrammar.Proofs.SchemaExtents
import TokenGrammar.Proofs.WrittenForms

/-!
# Records decoded from any of their forms

An object in which a field has two members is refused, whatever their values are
(`Fields.refuses_repeated`). So a record decoded by its fields is decoded leniently
(`Schema.via_lenient`).
-/

namespace TokenGrammar.Json

-- ---------------------------------------------------------------------------
-- Fields that are given twice
-- ---------------------------------------------------------------------------

def Fields.Held : {α : Type} → (fields : Fields α) → fields.Slots → String → Prop
  | _, .nil, _, _ => False
  | _, .cons field _ _ rest, slots, name =>
    field = name ∧ slots.1.isSome = true ∨ rest.Held slots.2 name

theorem Fields.mem_names_of_held : {α : Type} → (fields : Fields α) → {slots : fields.Slots} →
    fields.Held slots name → name ∈ fields.names
  | _, .cons _ _ _ rest, _, h => by
    obtain ⟨rfl, -⟩ | h := h
    · exact List.mem_cons_self
    · exact List.mem_cons_of_mem _ (rest.mem_names_of_held h)

/-- What reading an entry does to the fields that have a value: it loses none, its own has one
then, and its own had none before. -/
structure Fields.Gains (fields : Fields α) (name : String) (slots slots' : fields.Slots) :
    Prop where
  keeps : ∀ field, fields.Held slots field → fields.Held slots' field
  gains : name ∈ fields.names → fields.Held slots' name
  first : name ∈ fields.names → ¬ fields.Held slots name

theorem Fields.readEntry_gains : {α : Type} → (fields : Fields α) → fields.wellFormed = true →
    {name : String} → {slots slots' : fields.Slots} → {input rest : List Symbol} →
    fields.readEntry name slots input = .ok (slots', rest) → fields.Gains name slots slots'
  | _, .nil, _, _, _, _, _, _, _ => by
    refine ⟨fun _ => id, fun hmem => ?_, fun hmem => ?_⟩ <;> exact absurd hmem List.not_mem_nil
  | _, .cons field absent schema fields, hfields, name, slots, slots', input, rest, h => by
    simp only [wellFormed, Bool.and_eq_true, Bool.not_eq_true', List.contains_eq_mem,
      decide_eq_false_iff_not] at hfields
    simp only [readEntry] at h
    split at h
    · next hname =>
      subst hname
      split at h
      · contradiction
      · next hnone =>
        obtain ⟨text, -, h⟩ := bind_eq_ok.1 h
        obtain ⟨⟨a, tail⟩, -, h⟩ := bind_eq_ok.1 h
        obtain ⟨rfl, -⟩ := Prod.mk.inj (Except.ok.inj h)
        refine ⟨fun n hn => ?_, fun _ => .inl ⟨rfl, rfl⟩, fun _ hheld => ?_⟩
        · exact hn.imp (fun hfirst => ⟨hfirst.1, rfl⟩) id
        · obtain ⟨-, hsome⟩ | hrest := hheld
          · exact hnone hsome
          · exact hfields.1.1 (fields.mem_names_of_held hrest)
    · next hname =>
      obtain ⟨⟨others, tail⟩, hrest, h⟩ := bind_eq_ok.1 h
      obtain ⟨rfl, -⟩ := Prod.mk.inj (Except.ok.inj h)
      obtain ⟨hkeeps, hgains, hfirst⟩ := fields.readEntry_gains hfields.2 hrest
      refine ⟨fun n hn => hn.imp id (hkeeps n), fun hmem => .inr (hgains ?_), fun hmem hheld => ?_⟩
      · exact (List.mem_cons.1 hmem).resolve_left (Ne.symm hname)
      · have hmem' := (List.mem_cons.1 hmem).resolve_left (Ne.symm hname)
        exact hfirst hmem' (hheld.resolve_left fun hfield => hname hfield.1)

/-- A member is read to its end, whether or not its value is what its field takes. -/
theorem Member.extent_unique (m : Member) {read : Reader α} (hread : TakesContent read)
    (hrest : Closed rest) (h : read (m.content ++ rest) = .ok (a, rest')) : rest' = rest := by
  obtain ⟨text, hcolon, budget, hskip⟩ := hread h
  rw [m.readMark_content] at hcolon
  obtain rfl := Except.ok.inj hcolon
  rw [skipValueUpTo_blanks] at hskip
  exact m.valid.extent_unique hrest ⟨budget, hskip⟩

/-- Whether the members of an object leave no field with two values, those in `slots` among
them. -/
def Fields.AtMostOnce (fields : Fields α) (slots : fields.Slots) (members : List Member) : Prop :=
  ∀ field ∈ fields.names, (members.filter (·.name = field)).length ≤ 1 ∧
    (fields.Held slots field → members.filter (·.name = field) = [])

theorem Fields.Gains.atMostOnce {fields : Fields α} {slots slots' : fields.Slots} {m : Member}
    (hgains : fields.Gains m.name slots slots') (h : fields.AtMostOnce slots' members) :
    fields.AtMostOnce slots (m :: members) := by
  intro field hfield
  obtain ⟨hone, hnone⟩ := h field hfield
  by_cases hname : m.name = field
  · subst hname
    have hfilter := hnone (hgains.gains hfield)
    simp only [List.filter_cons, decide_true, if_true, hfilter, List.length_singleton]
    exact ⟨Nat.le_refl 1, fun hheld => absurd hheld (hgains.first hfield)⟩
  · simp only [List.filter_cons, hname, decide_false, Bool.false_eq_true, if_false]
    exact ⟨hone, fun hheld => hnone (hgains.keeps field hheld)⟩

theorem Member.text_eq (m : Member) : m.text =
    m.key.before.text ++ m.key.core ++ (m.content ++ m.value.after.text) := by
  rw [← m.snd_entry]
  simp [entry]

section
variable (fields : Fields α) (hfields : fields.wellFormed = true)
include hfields

theorem Fields.atMostOnce_cons {slots slots' : fields.Slots} {members : List Member} {m : Member}
    (hrest : Closed rest)
    (hlater : ∀ {slots₁},
      readEntries fields.readEntry budget false slots₁ rest = .ok (slots', mid) →
        fields.AtMostOnce slots₁ members)
    (hkey : readNextKey first input = .ok (some m.name, m.content ++ (m.value.after.text ++ rest)))
    (h : readEntries fields.readEntry (budget + 1) first slots input = .ok (slots', mid)) :
    fields.AtMostOnce slots (m :: members) := by
  simp only [readEntries, hkey, ok_bind] at h
  obtain ⟨⟨slots₁, tail⟩, hentry, h⟩ := bind_eq_ok.1 h
  have hcontent := fields.readEntry_content fields.sameExtents m.name slots
  obtain rfl := m.extent_unique hcontent (hrest.blanks_append m.value.after.blank) hentry
  rw [readEntries_blanks m.value.after.blank] at h
  exact (fields.readEntry_gains hfields hentry).atMostOnce (hlater h)

theorem Fields.atMostOnce_later {slots slots' : fields.Slots} {members : List Member}
    (h : readEntries fields.readEntry budget false slots
      ((members.map fun m => m.text).flatMap (.char ',' :: ·) ++ .char '\x7d' :: rest) =
        .ok (slots', mid)) : fields.AtMostOnce slots members := by
  induction members generalizing budget slots with
  | nil => exact fun _ _ => ⟨Nat.zero_le 1, fun _ => rfl⟩
  | cons m members ih =>
    cases budget with
    | zero => contradiction
    | succ budget =>
      simp only [List.map_cons, List.flatMap_cons, List.cons_append, m.text_eq,
        List.append_assoc] at h
      refine Fields.atMostOnce_cons fields hfields (closed_later _ rfl rest) (fun h => ih h) ?_ h
      have hkey := readNextKey_later (m.readKey_key (m.content ++ (m.value.after.text ++
        ((members.map fun m => m.text).flatMap (.char ',' :: ·) ++ .char '\x7d' :: rest))))
      simpa using hkey

theorem Fields.atMostOnce_of_readObject (gap : Blanks) {members : List Member}
    (h : fields.readObject (gap.text ++ ([.char ','].intercalate (members.map fun m => m.text) ++
      .char '\x7d' :: rest)) = .ok (a, mid)) :
    ∀ field ∈ fields.names, (members.filter (·.name = field)).length ≤ 1 := by
  obtain ⟨⟨slots, tail⟩, h, -⟩ := bind_eq_ok.1 h
  rw [readEntries_blanks gap.blank] at h
  cases members with
  | nil => exact fun _ _ => Nat.zero_le 1
  | cons m members =>
    have honce : fields.AtMostOnce fields.emptySlots (m :: members) := by
      simp only [List.map_cons, intercalate_comma_cons, m.text_eq, List.append_assoc] at h
      refine Fields.atMostOnce_cons fields hfields (closed_later _ rfl rest)
        (fun h => fields.atMostOnce_later hfields h) ?_ h
      have hkey := readNextKey_first (m.readKey_key (m.content ++ (m.value.after.text ++
        ((members.map fun m => m.text).flatMap (.char ',' :: ·) ++ .char '\x7d' :: rest))))
      simpa using hkey
    exact fun field hfield => (honce field hfield).1

end

theorem Fields.refuses_repeated (fields : Fields α) (hfields : fields.wellFormed = true)
    (hfield : field ∈ fields.names) {members : List Member}
    (htwice : 2 ≤ (members.filter (·.name = field)).length) (expected : String) (gap : Blanks)
    (rest : List Symbol) :
    (Schema.record expected fields).read (objectText gap (members.map Member.toPair) ++ rest) ≠
      .ok (a, rest') := by
  intro h
  have htext : objectText gap (members.map Member.toPair) ++ rest = .char '\x7b' ::
      (gap.text ++ ([.char ','].intercalate (members.map fun m => m.text) ++
        .char '\x7d' :: rest)) := by
    simp [objectText, Function.comp_def]
  rw [htext, Schema.read, readFrame, skipBlanks_cons_of_not_blank rfl] at h
  obtain ⟨⟨b, mid⟩, hobject, -⟩ := bind_eq_ok.1 h
  have honce := fields.atMostOnce_of_readObject hfields gap hobject field hfield
  omega

-- ---------------------------------------------------------------------------
-- Lenient decoders
-- ---------------------------------------------------------------------------

/-- Whether a decoder takes every value that `fits` from the array of its fields and from every
object that has them, blanks around it aside, and refuses an object that repeats one of its
keys. -/
structure Lenient (decode : String → Except ε α) (keys : List String) (fits : α → Bool)
    (listed : List Spaced → α → Prop) (given : List Member → α → Prop) : Prop where
  covers : ∀ a, fits a = true → (∃ items, listed items a) ∧ ∃ members, given members a
  array : ∀ gap items a, listed items a →
    ∀ {written}, Surrounds written (arrayText gap items) → decode written = .ok a
  object : ∀ gap members a, given members a →
    ∀ {written}, Surrounds written (objectText gap (members.map Member.toPair)) →
      decode written = .ok a
  repeated : ∀ gap (members : List Member), ∀ key ∈ keys,
    2 ≤ (members.filter (·.name = key)).length →
    ∀ {written}, Surrounds written (objectText gap (members.map Member.toPair)) →
      ∃ problem, decode written = .error problem

section
variable {decode : String → Except ε α} {keys : List String} {fits : α → Bool}
  {listed : List Spaced → α → Prop} {given : List Member → α → Prop}

theorem Lenient.congr (h : Lenient decode keys fits listed given)
    (hlisted : ∀ items a, listed' items a ↔ listed items a)
    (hgiven : ∀ members a, given' members a ↔ given members a) :
    Lenient decode keys fits listed' given' := by
  have hitems : listed' = listed := by
    funext items a
    exact propext (hlisted items a)
  have hmembers : given' = given := by
    funext members a
    exact propext (hgiven members a)
  rw [hitems, hmembers]
  exact h

theorem Lenient.mapError (h : Lenient decode keys fits listed given) (f : ε → ε') :
    Lenient (fun written => (decode written).mapError f) keys fits listed given where
  covers := h.covers
  array gap items a hitems written htext := by rw [h.array gap items a hitems htext]; rfl
  object gap members a hmembers written htext := by
    rw [h.object gap members a hmembers htext]
    rfl
  repeated gap members key hkey htwice written htext := by
    obtain ⟨problem, hproblem⟩ := h.repeated gap members key hkey htwice htext
    exact ⟨f problem, by rw [hproblem]; rfl⟩

end

/-- The values of a type that are told by the fields of a record are decoded leniently. -/
theorem Schema.via_lenient {forth : α → β} {back : β → α}
    (forth_back : ∀ b, forth (back b) = b) (expected : String) (fields : Fields α)
    (hfields : fields.wellFormed = true) :
    Lenient (Schema.via forth back forth_back (.record expected fields)).ofText? fields.names
      (fun b => fields.fits (back b)) (fun items b => fields.Listed items (back b))
      (fun members b => fields.Given members (back b)) where
  covers b hfits := by
    obtain ⟨members, -, -, hgiven⟩ := fields.givenAsWritten hfields (back b) hfits
    exact ⟨fields.exists_listed hfields (back b) hfits, members, hgiven⟩
  array gap items b hlisted written htext :=
    Schema.decodes _ hfields (.inl ⟨gap, items, hlisted, rfl⟩) htext
  object gap members b hgiven written htext :=
    Schema.decodes _ hfields (.inr ⟨gap, members, hgiven, rfl⟩) htext
  repeated gap members key hkey htwice written htext := by
    obtain ⟨part, hcore, htext⟩ := htext
    cases h : (Schema.via forth back forth_back (.record expected fields)).ofText? written with
    | error problem => exact ⟨problem, rfl⟩
    | ok b =>
      obtain ⟨⟨c, tail⟩, hread, -⟩ := bind_eq_ok.1 h
      rw [htext, Spaced.text, List.append_assoc, Schema.read_blanks, hcore] at hread
      obtain ⟨⟨a, r⟩, hrecord, -⟩ := bind_eq_ok.1 hread
      exact absurd hrecord (fields.refuses_repeated hfields hkey htwice expected gap _)

end TokenGrammar.Json
