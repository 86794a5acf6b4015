import TokenGrammar.Proofs.Scanning

/-!
# Objects read entry by entry

The entries of an object are taken in one after another, in the order that the text has them
(`Entries`). An object whose entries fill the slots of a record is read as that record
(`Entries.takes`).
-/

namespace TokenGrammar.Json

/-- Whether a reader takes `text` from the front of what does not go on with a number, and
reads it as `a`. -/
def Takes (read : Reader α) (text : List Symbol) (a : α) : Prop :=
  ∀ rest, Closed rest → read (text ++ rest) = .ok (a, rest)

-- ---------------------------------------------------------------------------
-- Blanks
-- ---------------------------------------------------------------------------

section
variable {blanks : List Symbol} (hblanks : ∀ s ∈ blanks, s.isBlank = true)
include hblanks

theorem skipBlanks_append (input : List Symbol) :
    skipBlanks (blanks ++ input) = skipBlanks input :=
  List.dropWhile_append_of_pos hblanks

theorem Closed.blanks_append (h : Closed rest) : Closed (blanks ++ rest) := by
  cases blanks with
  | nil => exact h
  | cons s blanks =>
    have hblank := hblanks s List.mem_cons_self
    cases s with
    | stray => contradiction
    | char c =>
      simp only [Symbol.isBlank, Bool.or_eq_true, beq_iff_eq] at hblank
      rw [List.cons_append, closed_cons]
      obtain ((rfl | rfl) | rfl) | rfl := hblank <;> rfl

end

-- ---------------------------------------------------------------------------
-- Keys
-- ---------------------------------------------------------------------------

def readKey : Reader String := fun input => do readString (← readKeyMark input)

theorem readKey_ok (h : readKey input = .ok (name, rest)) :
    ∃ text, skipBlanks input = .char '"' :: text ∧ readString text = .ok (name, rest) := by
  simp only [readKey, readKeyMark] at h
  split at h
  · contradiction
  · next text hinput => exact ⟨text, hinput, h⟩
  · contradiction

theorem readNextKey_first (h : readKey input = .ok (name, rest)) :
    readNextKey true input = .ok (some name, rest) := by
  obtain ⟨text, hinput, hstring⟩ := readKey_ok h
  simp [readNextKey, hinput, readKeyMark, Symbol.isBlank, hstring]

theorem readNextKey_later (h : readKey input = .ok (name, rest)) :
    readNextKey false (.char ',' :: input) = .ok (some name, rest) := by
  obtain ⟨text, hinput, hstring⟩ := readKey_ok h
  simp [readNextKey, Symbol.isBlank, readKeyMark, hinput, hstring]

theorem readNextKey_blanks (hblanks : ∀ s ∈ blanks, s.isBlank = true) (first : Bool)
    (input : List Symbol) : readNextKey first (blanks ++ input) = readNextKey first input := by
  simp only [readNextKey, skipBlanks_append hblanks]

-- ---------------------------------------------------------------------------
-- Entries
-- ---------------------------------------------------------------------------

variable {σ : Type}

/-- Entries of an object that `entry` takes in one after another, with their keys. Each may
have blanks after it. -/
inductive Entries (entry : String → σ → Reader σ) : σ → List (String × List Symbol) → σ → Prop
  | nil : Entries entry slots [] slots
  | cons (hkey : ∀ rest, readKey (key ++ rest) = .ok (name, rest))
      (hvalue : Takes (entry name slots) value slots₁)
      (hblanks : ∀ s ∈ blanks, s.isBlank = true)
      (hrest : Entries entry slots₁ entries slots₂) :
      Entries entry slots ((name, key ++ value ++ blanks) :: entries) slots₂

variable {entry : String → σ → Reader σ} {slots slots₁ slots₂ : σ}

def joinEntries (entries : List (String × List Symbol)) : List Symbol :=
  [.char ','].intercalate (entries.map (·.2))

theorem intercalate_comma_cons (text : List Symbol) (texts : List (List Symbol)) :
    [.char ','].intercalate (text :: texts) = text ++ texts.flatMap (.char ',' :: ·) := by
  induction texts generalizing text with
  | nil => simp
  | cons next texts ih =>
    rw [List.intercalate_cons_cons, ih next]
    simp

theorem joinEntries_cons (e : String × List Symbol) (entries : List (String × List Symbol)) :
    joinEntries (e :: entries) = e.2 ++ entries.flatMap (.char ',' :: ·.2) := by
  rw [joinEntries, List.map_cons, intercalate_comma_cons, List.flatMap_map]

theorem readEntries_cons (hkey : readNextKey first input = .ok (some name, rest₁))
    (hvalue : entry name slots rest₁ = .ok (slots₁, rest₂)) :
    readEntries entry (budget + 1) first slots input =
      readEntries entry budget false slots₁ rest₂ := by
  simp [readEntries, hkey, hvalue]

theorem readEntries_blanks (hblanks : ∀ s ∈ blanks, s.isBlank = true) (input : List Symbol) :
    readEntries entry budget first slots (blanks ++ input) =
      readEntries entry budget first slots input := by
  cases budget with
  | zero => rfl
  | succ budget => simp only [readEntries, readNextKey_blanks hblanks]

theorem closed_joinEntries_end (entries : List (String × List Symbol)) (rest : List Symbol) :
    Closed (entries.flatMap (.char ',' :: ·.2) ++ .char '\x7d' :: rest) := by
  cases entries <;> exact closed_cons.2 rfl

theorem Entries.read_later (h : Entries entry slots entries slots₂)
    (hbudget : entries.length < budget) (rest : List Symbol) :
    readEntries entry budget false slots
      (entries.flatMap (.char ',' :: ·.2) ++ .char '\x7d' :: rest) =
        .ok (slots₂, .char '\x7d' :: rest) := by
  induction h generalizing budget with
  | nil =>
    cases budget with
    | zero => contradiction
    | succ budget => rfl
  | cons hkey hvalue hblanks _ ih =>
    cases budget with
    | zero => contradiction
    | succ budget =>
      rw [List.length_cons, Nat.succ_lt_succ_iff] at hbudget
      simp only [List.flatMap_cons, List.cons_append, List.append_assoc]
      rw [readEntries_cons (readNextKey_later (hkey _))
          (hvalue _ ((closed_joinEntries_end _ rest).blanks_append hblanks)),
        readEntries_blanks hblanks, ih hbudget]

theorem Entries.read_first (h : Entries entry slots entries slots₂)
    (hbudget : entries.length ≤ budget) (rest : List Symbol) :
    readEntries entry (budget + 1) true slots (joinEntries entries ++ .char '\x7d' :: rest) =
      .ok (slots₂, .char '\x7d' :: rest) := by
  cases h with
  | nil => rfl
  | cons hkey hvalue hblanks hrest =>
    simp only [joinEntries_cons, List.append_assoc]
    rw [readEntries_cons (readNextKey_first (hkey _))
        (hvalue _ ((closed_joinEntries_end _ rest).blanks_append hblanks)),
      readEntries_blanks hblanks, hrest.read_later hbudget]

theorem length_le_length_joinEntries (entries : List (String × List Symbol)) :
    entries.length ≤ (joinEntries entries).length + 1 := by
  have hcommas : ∀ entries : List (String × List Symbol),
      entries.length ≤ (entries.flatMap (.char ',' :: ·.2)).length := by
    intro entries
    induction entries with
    | nil => exact Nat.le_refl 0
    | cons e entries ih =>
      simp only [List.flatMap_cons, List.length_append, List.length_cons]
      omega
  cases entries with
  | nil => exact Nat.zero_le _
  | cons e entries =>
    have hlater := hcommas entries
    simp only [joinEntries_cons, List.length_append, List.length_cons]
    omega

-- ---------------------------------------------------------------------------
-- Objects
-- ---------------------------------------------------------------------------

def Fields.readObject (fields : Fields α) : Reader α := fun input => do
  let (slots, rest) ←
    readEntries fields.readEntry (input.length + 1) true fields.emptySlots input
  return (← fields.finish slots, rest)

theorem Entries.takes {fields : Fields α} {slots : fields.Slots}
    (h : Entries fields.readEntry fields.emptySlots entries slots)
    (hfinish : fields.finish slots = .ok a) (hblanks : ∀ s ∈ blanks, s.isBlank = true)
    (items : Reader α) :
    Takes (readFrame expected items fields.readObject)
      (.char '\x7b' :: (blanks ++ (joinEntries entries ++ [.char '\x7d']))) a := by
  intro rest _
  have hbudget :
      entries.length ≤ (blanks ++ (joinEntries entries ++ .char '\x7d' :: rest)).length := by
    have hlength := length_le_length_joinEntries entries
    simp only [List.length_append, List.length_cons]
    omega
  have hobject : fields.readObject (blanks ++ (joinEntries entries ++ .char '\x7d' :: rest)) =
      .ok (a, .char '\x7d' :: rest) := by
    unfold Fields.readObject
    rw [readEntries_blanks hblanks, h.read_first hbudget]
    simp [hfinish]
  simp [readFrame, hobject, readMark, Symbol.isBlank, readWord]

end TokenGrammar.Json
