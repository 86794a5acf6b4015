import TokenGrammar.Proofs.Extents

/-!
# Records are read by the symbols that are passed over

A value of any schema ends where it is passed over (`Schema.extent`): a record with its fields as
an array or as an object, and a variant with its case.
-/

namespace TokenGrammar.Json

-- ---------------------------------------------------------------------------
-- Records
-- ---------------------------------------------------------------------------

theorem readNextItem_ok (h : readNextItem first input = .ok (more, rest)) :
    (more = false ∧ ∃ tail, skipBlanks input = .char ']' :: tail ∧ rest = .char ']' :: tail) ∨
    (more = true ∧ first = true ∧ ∃ s tail, skipBlanks input = s :: tail ∧ s ≠ .char ']' ∧
      rest = s :: tail) ∨
    (more = true ∧ first = false ∧ ∃ tail, skipBlanks input = .char ',' :: tail ∧
      rest = skipBlanks tail) := by
  unfold readNextItem at h
  split at h
  · contradiction
  · next tail hinput =>
    obtain ⟨rfl, rfl⟩ := Prod.mk.inj (Except.ok.inj h)
    exact .inl ⟨rfl, tail, hinput, rfl⟩
  · next tail hinput =>
    split at h
    · next hfirst =>
      obtain ⟨rfl, rfl⟩ := Prod.mk.inj (Except.ok.inj h)
      exact .inr (.inl ⟨rfl, hfirst, .char ',', tail, hinput, by decide, rfl⟩)
    · next hfirst =>
      split at h
      · contradiction
      · contradiction
      · obtain ⟨rfl, rfl⟩ := Prod.mk.inj (Except.ok.inj h)
        exact .inr (.inr ⟨rfl, by simpa using hfirst, tail, hinput, rfl⟩)
  · next hempty hclose hcomma =>
    split at h
    · next hfirst =>
      obtain ⟨rfl, rfl⟩ := Prod.mk.inj (Except.ok.inj h)
      cases hinput : skipBlanks input with
      | nil => exact (hempty hinput).elim
      | cons s tail =>
        refine .inr (.inl ⟨rfl, hfirst, s, tail, rfl, ?_, rfl⟩)
        rintro rfl
        exact hclose tail hinput
    · contradiction

theorem readNextKey_key_ok (h : (do
      let (name, rest) ← readString (← readKeyMark input)
      return (some name, rest)) = .ok (key?, rest)) :
    ∃ name text, key? = some name ∧ skipBlanks input = .char '"' :: text ∧
      readString text = .ok (name, rest) := by
  obtain ⟨text, hmark, ⟨name, tail⟩, hstring, h⟩ := by simpa only [bind_eq_ok] using h
  obtain ⟨rfl, rfl⟩ := Prod.mk.inj (Except.ok.inj h)
  have hkey : readKey input = .ok (name, tail) := by rw [readKey, hmark, ok_bind, hstring]
  obtain ⟨text', hinput, hread⟩ := readKey_ok hkey
  exact ⟨name, text', rfl, hinput, hread⟩

theorem readNextKey_ok (h : readNextKey first input = .ok (key?, rest)) :
    (key? = none ∧ ∃ tail, skipBlanks input = .char '\x7d' :: tail ∧ rest = .char '\x7d' :: tail) ∨
    (first = true ∧ ∃ name text, key? = some name ∧ skipBlanks input = .char '"' :: text ∧
      readString text = .ok (name, rest)) ∨
    (first = false ∧ ∃ tail name text, key? = some name ∧ skipBlanks input = .char ',' :: tail ∧
      skipBlanks tail = .char '"' :: text ∧ readString text = .ok (name, rest)) := by
  unfold readNextKey at h
  split at h
  · contradiction
  · next tail hinput =>
    obtain ⟨rfl, rfl⟩ := Prod.mk.inj (Except.ok.inj h)
    exact .inl ⟨rfl, tail, hinput, rfl⟩
  · next tail hinput =>
    split at h
    · contradiction
    · next hfirst =>
      obtain ⟨name, text, hkey, htail, hstring⟩ := readNextKey_key_ok h
      exact .inr (.inr ⟨by simpa using hfirst, tail, name, text, hkey, hinput, htail, hstring⟩)
  · split at h
    · next hfirst =>
      obtain ⟨name, text, hkey, htail, hstring⟩ := readNextKey_key_ok h
      rw [skipBlanks_skipBlanks] at htail
      exact .inr (.inl ⟨hfirst, name, text, hkey, htail, hstring⟩)
    · contradiction

def TakesContent (read : Reader α) : Prop :=
  ∀ ⦃input a rest⦄, read input = .ok (a, rest) →
    ∃ text, readMark ':' input = .ok text ∧ Passes skipValueUpTo text rest

section
variable {σ : Type} {entry : String → σ → Reader σ}
  (hentry : ∀ name slots, TakesContent (entry name slots))
include hentry

theorem readEntries_ok_later (h : readEntries entry budget false slots input = .ok (slots', mid))
    (hclose : readMark '\x7d' mid = .ok rest) : Passes skipEntriesUpTo input rest := by
  induction budget generalizing slots input with
  | zero => contradiction
  | succ budget ih =>
    simp only [readEntries] at h
    obtain ⟨⟨key?, tail⟩, hnext, h⟩ := bind_eq_ok.1 h
    obtain ⟨rfl, r, hinput, rfl⟩ | ⟨hfirst, -⟩ | ⟨-, r, name, text, rfl, hinput, hkey, hstring⟩ :=
      readNextKey_ok hnext
    · obtain ⟨-, rfl⟩ := Prod.mk.inj (Except.ok.inj h)
      have hr := readMark_ok hclose
      rw [skipBlanks_cons_of_not_blank rfl] at hr
      obtain ⟨-, rfl⟩ := List.cons.inj hr
      exact bracketed_object.passes_close hinput
    · contradiction
    · obtain ⟨⟨slots₁, r₁⟩, hvalue, hrest⟩ := bind_eq_ok.1 h
      obtain ⟨content, hcolon, hpasses⟩ := hentry name slots hvalue
      exact bracketed_object.passes_comma grows_skipEntryUpTo grows_skipEntriesUpTo hinput
        (.entry hkey (readString_ok hstring) hcolon hpasses) (ih hrest)

theorem readEntries_ok_first (h : readEntries entry budget true slots input = .ok (slots', mid))
    (hclose : readMark '\x7d' mid = .ok rest) :
    Passes skipValueUpTo (.char '\x7b' :: input) rest := by
  cases budget with
  | zero => contradiction
  | succ budget =>
    simp only [readEntries] at h
    obtain ⟨⟨key?, tail⟩, hnext, h⟩ := bind_eq_ok.1 h
    obtain ⟨rfl, r, hinput, rfl⟩ | ⟨-, name, text, rfl, hinput, hstring⟩ | ⟨hfirst, -⟩ :=
      readNextKey_ok hnext
    · obtain ⟨-, rfl⟩ := Prod.mk.inj (Except.ok.inj h)
      have hr := readMark_ok hclose
      rw [skipBlanks_cons_of_not_blank rfl] at hr
      obtain ⟨-, rfl⟩ := List.cons.inj hr
      exact bracketed_object.passes_empty hinput
    · obtain ⟨⟨slots₁, r₁⟩, hvalue, hrest⟩ := bind_eq_ok.1 h
      obtain ⟨content, hcolon, hpasses⟩ := hentry name slots hvalue
      exact bracketed_object.passes_first grows_skipEntryUpTo grows_skipEntriesUpTo hinput
        (by decide) (.entry hinput (readString_ok hstring) hcolon hpasses)
        (readEntries_ok_later hentry hrest hclose)
    · contradiction

end

theorem readFrame_extent {items entries : Reader α}
    (hitems : ∀ {input a mid rest}, items input = .ok (a, mid) → readMark ']' mid = .ok rest →
      Passes skipValueUpTo (.char '[' :: input) rest)
    (hentries : ∀ {input a mid rest}, entries input = .ok (a, mid) →
      readMark '\x7d' mid = .ok rest → Passes skipValueUpTo (.char '\x7b' :: input) rest) :
    SameExtent (readFrame expected items entries) := by
  intro input a rest h
  unfold readFrame at h
  split at h
  · contradiction
  · next tail hinput =>
    obtain ⟨⟨b, mid⟩, hread, h⟩ := bind_eq_ok.1 h
    obtain ⟨r, hclose, h⟩ := bind_eq_ok.1 h
    obtain ⟨-, rfl⟩ := Prod.mk.inj (Except.ok.inj h)
    exact .value_of_blanks (by rw [hinput]; exact hitems hread hclose)
  · next tail hinput =>
    obtain ⟨⟨b, mid⟩, hread, h⟩ := bind_eq_ok.1 h
    obtain ⟨r, hclose, h⟩ := bind_eq_ok.1 h
    obtain ⟨-, rfl⟩ := Prod.mk.inj (Except.ok.inj h)
    exact .value_of_blanks (by rw [hinput]; exact hentries hread hclose)
  · exact absurd h refuse_ne_ok

theorem Fields.readObject_extent (fields : Fields α)
    (hentry : ∀ name slots, TakesContent (fields.readEntry name slots))
    (h : fields.readObject input = .ok (a, mid)) (hclose : readMark '\x7d' mid = .ok rest) :
    Passes skipValueUpTo (.char '\x7b' :: input) rest := by
  obtain ⟨⟨slots, tail⟩, hentries, h⟩ := bind_eq_ok.1 h
  obtain ⟨b, -, h⟩ := bind_eq_ok.1 h
  obtain ⟨-, rfl⟩ := Prod.mk.inj (Except.ok.inj h)
  exact readEntries_ok_first hentry hentries hclose

-- ---------------------------------------------------------------------------
-- Fields
-- ---------------------------------------------------------------------------

namespace Fields

def SameExtents : {α : Type} → Fields α → Prop
  | _, .nil => True
  | _, .cons _ _ schema rest => SameExtent schema.read ∧ rest.SameExtents

theorem readEntry_content : {α : Type} → (fields : Fields α) → fields.SameExtents →
    (name : String) → (slots : fields.Slots) → TakesContent (fields.readEntry name slots)
  | _, .nil, _, name, () => by
    intro input slots rest h
    obtain ⟨text, hcolon, h⟩ := bind_eq_ok.1 h
    obtain ⟨r, hskip, h⟩ := bind_eq_ok.1 h
    obtain ⟨-, rfl⟩ := Prod.mk.inj (Except.ok.inj h)
    exact ⟨text, hcolon, _, hskip⟩
  | _, .cons field _ schema rest, hfields, name, slots => by
    intro input slots' mid h
    simp only [readEntry] at h
    split at h
    · split at h
      · contradiction
      · obtain ⟨text, hcolon, h⟩ := bind_eq_ok.1 h
        obtain ⟨⟨a, tail⟩, hread, h⟩ := bind_eq_ok.1 h
        obtain ⟨-, rfl⟩ := Prod.mk.inj (Except.ok.inj h)
        exact ⟨text, hcolon, hfields.1 hread⟩
    · obtain ⟨others, hrest⟩ := exists_of_read_map h
      exact rest.readEntry_content hfields.2 name slots.2 hrest

theorem readItems_ok_later : {α : Type} → (fields : Fields α) → fields.SameExtents →
    {expected : String} → {length before : Nat} → before ≠ 0 → {input mid rest : List Symbol} →
    {a : α} → fields.readItems expected length before input = .ok (a, mid) →
    readMark ']' mid = .ok rest → Passes skipItemsUpTo input rest
  | _, .nil, _, _, _, _, _, _, _, _, _, h, hclose => by
    obtain ⟨-, rfl⟩ := Prod.mk.inj (Except.ok.inj h)
    exact bracketed_array.passes_close (readMark_ok hclose)
  | _, .cons _ absent schema fields, hfields, _, length, before, hbefore, input, mid, rest, _, h,
      hclose => by
    simp only [readItems] at h
    obtain ⟨⟨more, tail⟩, hnext, h⟩ := bind_eq_ok.1 h
    obtain ⟨rfl, r, hinput, rfl⟩ | ⟨-, hfirst, -⟩ | ⟨rfl, -, r, hinput, rfl⟩ :=
      readNextItem_ok hnext
    · dsimp only at h
      split at h
      · obtain ⟨b, hrest⟩ := exists_of_read_map h
        obtain ⟨budget, hok⟩ :=
          fields.readItems_ok_later hfields.2 (Nat.succ_ne_zero _) hrest hclose
        exact ⟨budget, by rwa [← skipItemsUpTo_skipBlanks, hinput]⟩
      · contradiction
    · rw [beq_iff_eq] at hfirst
      contradiction
    · obtain ⟨⟨a, mid₁⟩, hvalue, h⟩ := bind_eq_ok.1 h
      obtain ⟨b, hrest⟩ := exists_of_read_map h
      exact bracketed_array.passes_comma grows_skipValueUpTo grows_skipItemsUpTo hinput
        (.value_of_blanks (hfields.1 hvalue))
        (fields.readItems_ok_later hfields.2 (Nat.succ_ne_zero _) hrest hclose)

theorem readItems_ok_first (fields : Fields α) (hfields : fields.SameExtents) {length : Nat}
    (h : fields.readItems expected length 0 input = .ok (a, mid))
    (hclose : readMark ']' mid = .ok rest) : Passes skipValueUpTo (.char '[' :: input) rest := by
  cases fields with
  | nil =>
    obtain ⟨-, rfl⟩ := Prod.mk.inj (Except.ok.inj h)
    exact bracketed_array.passes_empty (readMark_ok hclose)
  | cons name absent schema fields =>
    simp only [readItems] at h
    obtain ⟨⟨more, tail⟩, hnext, h⟩ := bind_eq_ok.1 h
    obtain ⟨rfl, r, hinput, rfl⟩ | ⟨rfl, -, s, r, hinput, hs, rfl⟩ | ⟨-, hfirst, -⟩ :=
      readNextItem_ok hnext
    · dsimp only at h
      split at h
      · obtain ⟨b, hrest⟩ := exists_of_read_map h
        have hpasses := fields.readItems_ok_later hfields.2 (Nat.succ_ne_zero _) hrest hclose
        have hend : Passes skipItemsUpTo (.char ']' :: r) r :=
          bracketed_array.passes_close rfl
        rw [hpasses.unique grows_skipItemsUpTo hend]
        exact bracketed_array.passes_empty hinput
      · contradiction
    · obtain ⟨⟨a, mid₁⟩, hvalue, h⟩ := bind_eq_ok.1 h
      obtain ⟨b, hrest⟩ := exists_of_read_map h
      exact bracketed_array.passes_first grows_skipValueUpTo grows_skipItemsUpTo hinput hs
        (.value_of_blanks (by rw [hinput]; exact hfields.1 hvalue))
        (fields.readItems_ok_later hfields.2 (Nat.succ_ne_zero _) hrest hclose)
    · contradiction

theorem readRecord_extent (fields : Fields α) (hfields : fields.SameExtents) (expected : String) :
    SameExtent (readFrame expected (fields.readItems expected fields.length 0)
      fields.readObject) :=
  readFrame_extent (fields.readItems_ok_first hfields)
    (fields.readObject_extent (fields.readEntry_content hfields))

end Fields

-- ---------------------------------------------------------------------------
-- All schemas
-- ---------------------------------------------------------------------------

theorem passes_case {cases : Cases α} (hinput : skipBlanks input = .char '\x7b' :: tail)
    (hcontent : ∀ name, TakesContent (cases.readContent cases.names name))
    (h : (do
      let (name, rest) ← readString (← readKeyMark tail)
      let (a, rest) ← cases.readContent cases.names name rest
      return (a, ← readMark '\x7d' rest)) = .ok (a, rest)) : Passes skipValueUpTo input rest := by
  obtain ⟨text, hmark, ⟨name, r⟩, hstring, ⟨b, mid⟩, hread, r', hclose, h⟩ := by
    simpa only [bind_eq_ok] using h
  obtain ⟨-, rfl⟩ := Prod.mk.inj (Except.ok.inj h)
  have hkey : readKey tail = .ok (name, r) := by rw [readKey, hmark, ok_bind, hstring]
  obtain ⟨text', htail, hstring'⟩ := readKey_ok hkey
  obtain ⟨content, hcolon, hpasses⟩ := hcontent name hread
  refine .value_of_blanks ?_
  rw [hinput]
  exact bracketed_object.passes_first grows_skipEntryUpTo grows_skipEntriesUpTo htail (by decide)
    (.entry htail (readString_ok hstring') hcolon hpasses)
    (bracketed_object.passes_close (readMark_ok hclose))

mutual

theorem Schema.extent : {α : Type} → (schema : Schema α) → SameExtent schema.read
  | _, .natural => readInteger_extent _ _
  | _, .integer => readInteger_extent _ _
  | _, .boolean => readBoolean_extent
  | _, .text => readText_extent
  | _, .optional inner => by
    intro input a rest h
    simp only [Schema.read] at h
    split at h
    · next tail hinput =>
      obtain ⟨r, hword, h⟩ := bind_eq_ok.1 h
      obtain ⟨-, rfl⟩ := Prod.mk.inj (Except.ok.inj h)
      exact .single hinput hword
    · obtain ⟨b, hread⟩ := exists_of_read_map h
      exact .value_of_blanks (inner.extent hread)
  | _, .record expected fields => fields.readRecord_extent fields.sameExtents expected
  | _, .variants cases => by
    intro input a rest h
    simp only [Schema.read] at h
    split at h
    · contradiction
    · next tail hinput =>
      obtain ⟨⟨name, r⟩, hstring, h⟩ := bind_eq_ok.1 h
      obtain ⟨b, -, h⟩ := bind_eq_ok.1 h
      obtain ⟨-, rfl⟩ := Prod.mk.inj (Except.ok.inj h)
      exact .single hinput (readString_ok hstring)
    · next tail hinput => exact passes_case hinput (cases.readContent_content cases.names) h
    · contradiction
  | _, .via forth _ _ inner => by
    intro input b rest h
    obtain ⟨a, hread⟩ := exists_of_read_map h
    exact inner.extent hread

theorem Fields.sameExtents : {α : Type} → (fields : Fields α) → fields.SameExtents
  | _, .nil => trivial
  | _, .cons _ _ schema rest => ⟨schema.extent, rest.sameExtents⟩

theorem Cases.readContent_content : {α : Type} → (cases : Cases α) → (known : List String) →
    (name : String) → TakesContent (cases.readContent known name)
  | _, .nil, _, _ => by
    intro input a rest h
    contradiction
  | _, .unit n cases, known, name => by
    intro input a rest h
    simp only [Cases.readContent] at h
    split at h
    · obtain ⟨text, hcolon, h⟩ := bind_eq_ok.1 h
      obtain ⟨r, hnull, h⟩ := bind_eq_ok.1 h
      obtain ⟨-, rfl⟩ := Prod.mk.inj (Except.ok.inj h)
      exact ⟨text, hcolon, readNull_ok hnull⟩
    · obtain ⟨b, hread⟩ := exists_of_read_map h
      exact cases.readContent_content known name hread
  | _, .record n expected fields cases, known, name => by
    intro input a rest h
    simp only [Cases.readContent] at h
    split at h
    · obtain ⟨text, hcolon, h⟩ := bind_eq_ok.1 h
      obtain ⟨b, hread⟩ := exists_of_read_map h
      exact ⟨text, hcolon, fields.readRecord_extent fields.sameExtents expected hread⟩
    · obtain ⟨b, hread⟩ := exists_of_read_map h
      exact cases.readContent_content known name hread

end

end TokenGrammar.Json
