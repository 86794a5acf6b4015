import TokenGrammar.Proofs.Lexemes

/-!
# Any JSON value is passed over

The JSON values as texts (`Valid`), told without the reader. Arrays and objects are both lists of
parts between two marks (`Bracketed`). Each value is passed over as a whole in front of whatever
does not go on with a number (`Valid.skipValue`), whatever its size and depth and wherever it has
blanks.
-/

namespace TokenGrammar.Json

-- ---------------------------------------------------------------------------
-- Values
-- ---------------------------------------------------------------------------

def arrayText (gap : Blanks) (items : List Spaced) : List Symbol :=
  .char '[' :: (gap.text ++ ([.char ','].intercalate (items.map Spaced.text) ++ [.char ']']))

structure Pair where
  key : Spaced
  value : Spaced

def Pair.text (pair : Pair) : List Symbol := pair.key.text ++ .char ':' :: pair.value.text

def objectText (gap : Blanks) (pairs : List Pair) : List Symbol :=
  .char '\x7b' ::
    (gap.text ++ ([.char ','].intercalate (pairs.map Pair.text) ++ [.char '\x7d']))

/-- Whether a text is a JSON value, without blanks around it. Blanks between its parts stand
around the parts; those of `gap` do where there are none. -/
inductive Valid : List Symbol → Prop
  | null : Valid (Symbol.ofText "null")
  | boolean (b : Bool) : Valid (Symbol.ofText (if b then "true" else "false"))
  | number (h : IsNumber text) : Valid text
  | string (h : IsUnits units) : Valid (quoted units)
  | array (gap : Blanks) (hitems : ∀ item ∈ items, Valid item.core) : Valid (arrayText gap items)
  | object (gap : Blanks) (hkeys : ∀ pair ∈ pairs, ∃ units, IsUnits units ∧
        pair.key.core = quoted units)
      (hvalues : ∀ pair ∈ pairs, Valid pair.value.core) : Valid (objectText gap pairs)

theorem Valid.exists_cons (h : Valid text) :
    ∃ s rest, text = s :: rest ∧ s.isBlank = false ∧ s ≠ .char ']' := by
  cases h with
  | null => exact ⟨_, _, rfl, rfl, by decide⟩
  | boolean b => cases b <;> exact ⟨_, _, rfl, rfl, by decide⟩
  | number hnumber =>
    obtain ⟨s, rest, htext, hstarts⟩ := hnumber.exists_starts
    exact ⟨s, rest, htext, isBlank_of_starts hstarts, by rintro rfl; contradiction⟩
  | string => exact ⟨_, _, rfl, rfl, by decide⟩
  | array => exact ⟨_, _, rfl, rfl, by decide⟩
  | object => exact ⟨_, _, rfl, rfl, by decide⟩

-- ---------------------------------------------------------------------------
-- Blanks in front
-- ---------------------------------------------------------------------------

theorem skipValueUpTo_skipBlanks (budget : Nat) (input : List Symbol) :
    skipValueUpTo budget (skipBlanks input) = skipValueUpTo budget input := by
  cases budget with
  | zero => rfl
  | succ budget => simp only [skipValueUpTo, skipBlanks_skipBlanks]

theorem skipItemsUpTo_skipBlanks (budget : Nat) (input : List Symbol) :
    skipItemsUpTo budget (skipBlanks input) = skipItemsUpTo budget input := by
  cases budget with
  | zero => rfl
  | succ budget => simp only [skipItemsUpTo, skipBlanks_skipBlanks]

theorem skipEntryUpTo_skipBlanks (budget : Nat) (input : List Symbol) :
    skipEntryUpTo budget (skipBlanks input) = skipEntryUpTo budget input := by
  cases budget with
  | zero => rfl
  | succ budget => simp only [skipEntryUpTo, readKeyMark, skipBlanks_skipBlanks]

theorem skipEntriesUpTo_skipBlanks (budget : Nat) (input : List Symbol) :
    skipEntriesUpTo budget (skipBlanks input) = skipEntriesUpTo budget input := by
  cases budget with
  | zero => rfl
  | succ budget => simp only [skipEntriesUpTo, skipBlanks_skipBlanks]

theorem skipValueUpTo_blanks (gap : Blanks) (budget : Nat) (input : List Symbol) :
    skipValueUpTo budget (gap.text ++ input) = skipValueUpTo budget input :=
  gap.ignored (skipValueUpTo_skipBlanks budget) input

theorem readMark_colon_blanks (gap : Blanks) (input : List Symbol) :
    readMark ':' (gap.text ++ .char ':' :: input) = .ok input := by
  rw [readMark, skipBlanks_append gap.blank]
  rfl

theorem readKeyMark_blanks (gap : Blanks) (input : List Symbol) :
    readKeyMark (gap.text ++ .char '"' :: input) = .ok input := by
  rw [readKeyMark, skipBlanks_append gap.blank]
  rfl

theorem skipValueUpTo_number (hstarts : Number.starts s = true) (budget : Nat)
    (rest : List Symbol) :
    skipValueUpTo (budget + 1) (s :: rest) = Number.skip (s :: rest) := by
  unfold skipValueUpTo
  rw [skipBlanks_cons_of_not_blank (isBlank_of_starts hstarts)]
  split
  case h_8 heq =>
    cases heq
    rw [if_pos hstarts]
  case h_1 heq => contradiction
  all_goals
    next heq =>
      obtain ⟨rfl, -⟩ := List.cons.inj heq
      contradiction

-- ---------------------------------------------------------------------------
-- Lists between brackets
-- ---------------------------------------------------------------------------

/-- How a list between two marks is passed over: a part of it, then the parts after that, each
with a comma before it. -/
structure Bracketed (opens closes : Symbol) (part later : Nat → Skipper) : Prop where
  empty : ∀ {input rest}, skipBlanks input = closes :: rest → ∀ budget,
    skipValueUpTo (budget + 1) (opens :: input) = .ok rest
  first : ∀ {input s text}, skipBlanks input = s :: text → s ≠ closes → ∀ budget,
    skipValueUpTo (budget + 1) (opens :: input) = part budget input >>= later budget
  close : ∀ budget rest, later (budget + 1) (closes :: rest) = .ok rest
  comma : ∀ budget input,
    later (budget + 1) (.char ',' :: input) = part budget input >>= later budget
  part_skipBlanks : ∀ budget input, part budget (skipBlanks input) = part budget input
  later_skipBlanks : ∀ budget input, later budget (skipBlanks input) = later budget input
  closes_isBlank : closes.isBlank = false
  closes_extendsNumber : closes.extendsNumber = false

theorem bracketed_array : Bracketed (.char '[') (.char ']') skipValueUpTo skipItemsUpTo where
  empty h budget := by
    rw [skipValueUpTo, skipBlanks_cons_of_not_blank rfl]
    simp only [h]
  first h hs budget := by
    rw [skipValueUpTo, skipBlanks_cons_of_not_blank rfl, ← skipValueUpTo_skipBlanks budget]
    simp only [h]
    split
    · contradiction
    · next heq => exact absurd (List.cons.inj heq).1 hs
    · rfl
  close _ _ := rfl
  comma budget input := by simp [skipItemsUpTo, Symbol.isBlank]
  part_skipBlanks := skipValueUpTo_skipBlanks
  later_skipBlanks := skipItemsUpTo_skipBlanks
  closes_isBlank := rfl
  closes_extendsNumber := rfl

theorem bracketed_object :
    Bracketed (.char '\x7b') (.char '\x7d') skipEntryUpTo skipEntriesUpTo where
  empty h budget := by
    rw [skipValueUpTo, skipBlanks_cons_of_not_blank rfl]
    simp only [h]
  first h hs budget := by
    rw [skipValueUpTo, skipBlanks_cons_of_not_blank rfl, ← skipEntryUpTo_skipBlanks budget]
    simp only [h]
    split
    · contradiction
    · next heq => exact absurd (List.cons.inj heq).1 hs
    · rfl
  close _ _ := rfl
  comma budget input := by simp [skipEntriesUpTo, Symbol.isBlank]
  part_skipBlanks := skipEntryUpTo_skipBlanks
  later_skipBlanks := skipEntriesUpTo_skipBlanks
  closes_isBlank := rfl
  closes_extendsNumber := rfl

/-- Whether a text is passed over as a whole, two steps for each of its symbols being enough. -/
def Skipped (text : List Symbol) : Prop :=
  ∀ budget rest, 2 * text.length < budget → Closed rest →
    skipValueUpTo budget (text ++ rest) = .ok rest

structure IsPart (closes : Symbol) (part : Nat → Skipper) (text : List Symbol) : Prop where
  starts : ∀ rest, ∃ s input, skipBlanks (text ++ rest) = s :: input ∧ s ≠ closes
  passed : ∃ gap : Blanks, ∀ budget rest, 2 * text.length < budget → Closed rest →
    part budget (text ++ rest) = .ok (gap.text ++ rest)

theorem closed_later (texts : List (List Symbol)) (hclose : s.extendsNumber = false)
    (rest : List Symbol) : Closed (texts.flatMap (.char ',' :: ·) ++ s :: rest) := by
  cases texts with
  | nil => exact closed_cons.2 hclose
  | cons => exact closed_cons.2 rfl

namespace Bracketed

variable {opens closes : Symbol} {part later : Nat → Skipper}
  (h : Bracketed opens closes part later) {texts : List (List Symbol)}
include h

theorem skips_later (htexts : ∀ text ∈ texts, IsPart closes part text)
    (hbudget : 2 * (texts.flatMap (.char ',' :: ·)).length < budget) (rest : List Symbol) :
    later budget (texts.flatMap (.char ',' :: ·) ++ closes :: rest) = .ok rest := by
  induction texts generalizing budget with
  | nil =>
    cases budget with
    | zero => contradiction
    | succ budget => exact h.close budget rest
  | cons text texts ih =>
    rw [List.forall_mem_cons] at htexts
    obtain ⟨gap, hpart⟩ := htexts.1.passed
    cases budget with
    | zero => contradiction
    | succ budget =>
      simp only [List.flatMap_cons, List.length_append, List.length_cons] at hbudget
      simp only [List.flatMap_cons, List.cons_append, List.append_assoc]
      rw [h.comma, hpart budget _ (by omega) (closed_later _ h.closes_extendsNumber rest), ok_bind,
        gap.ignored (h.later_skipBlanks budget), ih htexts.2 (by omega)]

theorem skipped (gap : Blanks) (htexts : ∀ text ∈ texts, IsPart closes part text) :
    Skipped (opens :: (gap.text ++ ([.char ','].intercalate texts ++ [closes]))) := by
  intro budget rest hbudget _
  cases budget with
  | zero => contradiction
  | succ budget =>
    simp only [List.cons_append, List.append_assoc, List.nil_append]
    cases texts with
    | nil =>
      refine h.empty ?_ budget
      rw [List.intercalate_nil, List.nil_append, skipBlanks_append gap.blank,
        skipBlanks_cons_of_not_blank h.closes_isBlank]
    | cons text texts =>
      rw [List.forall_mem_cons] at htexts
      obtain ⟨gap', hpart⟩ := htexts.1.passed
      obtain ⟨s, input, hstart, hs⟩ :=
        htexts.1.starts (texts.flatMap (.char ',' :: ·) ++ closes :: rest)
      have hclosed := closed_later texts h.closes_extendsNumber rest
      simp only [intercalate_comma_cons, List.length_append, List.length_cons,
        List.length_nil] at hbudget
      rw [intercalate_comma_cons, List.append_assoc,
        h.first (by rw [skipBlanks_append gap.blank, hstart]) hs,
        gap.ignored (h.part_skipBlanks budget), hpart budget _ (by omega) hclosed, ok_bind,
        gap'.ignored (h.later_skipBlanks budget), h.skips_later htexts.2 (by omega)]

end Bracketed

-- ---------------------------------------------------------------------------
-- Parts of lists
-- ---------------------------------------------------------------------------

theorem isPart_item {item : Spaced} (hvalid : Valid item.core) (hskip : Skipped item.core) :
    IsPart (.char ']') skipValueUpTo item.text where
  starts rest := by
    obtain ⟨s, core, hcore, hblank, hs⟩ := hvalid.exists_cons
    exact ⟨s, _, by rw [item.skipBlanks_text hcore hblank rest, hcore]; rfl, hs⟩
  passed := by
    refine ⟨item.after, fun budget rest hbudget hrest => ?_⟩
    have hlength := item.length_core_le
    rw [Spaced.text, List.append_assoc, List.append_assoc, skipValueUpTo_blanks]
    exact hskip budget _ (by omega) (hrest.blanks_append item.after.blank)

theorem isPart_entry {pair : Pair} (hunits : IsUnits units) (hkey : pair.key.core = quoted units)
    (hskip : Skipped pair.value.core) : IsPart (.char '\x7d') skipEntryUpTo pair.text where
  starts rest := by
    refine ⟨.char '"', units ++ .char '"' :: (pair.key.after.text ++ .char ':' ::
      (pair.value.text ++ rest)), ?_, by decide⟩
    simp only [Pair.text, List.append_assoc, List.cons_append]
    rw [pair.key.skipBlanks_text hkey rfl, hkey]
    simp [quoted]
  passed := by
    refine ⟨pair.value.after, fun budget rest hbudget hrest => ?_⟩
    have hlength := pair.value.length_core_le
    simp only [Pair.text, List.length_append, List.length_cons] at hbudget
    cases budget with
    | zero => contradiction
    | succ budget =>
      simp only [skipEntryUpTo, Pair.text, Spaced.text, hkey, quoted, List.append_assoc,
        List.cons_append, List.nil_append, readKeyMark_blanks, ok_bind, hunits.skipString,
        readMark_colon_blanks, skipValueUpTo_blanks]
      exact hskip budget _ (by omega) (hrest.blanks_append pair.value.after.blank)

-- ---------------------------------------------------------------------------
-- All values
-- ---------------------------------------------------------------------------

theorem Valid.skipped (h : Valid text) : Skipped text := by
  induction h with
  | null =>
    intro budget rest hbudget _
    cases budget with
    | zero => contradiction
    | succ budget => rfl
  | boolean b =>
    intro budget rest hbudget _
    cases budget with
    | zero => contradiction
    | succ budget => cases b <;> rfl
  | number hnumber =>
    intro budget rest hbudget hrest
    have hskip := hnumber.skip hrest
    obtain ⟨s, text, rfl, hstarts⟩ := hnumber.exists_starts
    cases budget with
    | zero => contradiction
    | succ budget => rwa [List.cons_append, skipValueUpTo_number hstarts]
  | string hunits =>
    intro budget rest hbudget _
    cases budget with
    | zero => contradiction
    | succ budget =>
      have hskip := hunits.skipString rest
      simpa [skipValueUpTo, quoted, Symbol.isBlank] using hskip
  | array gap hitems ih =>
    refine bracketed_array.skipped gap fun text htext => ?_
    obtain ⟨item, hitem, rfl⟩ := List.mem_map.1 htext
    exact isPart_item (hitems item hitem) (ih item hitem)
  | object gap hkeys hvalues ih =>
    refine bracketed_object.skipped gap fun text htext => ?_
    obtain ⟨pair, hpair, rfl⟩ := List.mem_map.1 htext
    obtain ⟨units, hunits, hkey⟩ := hkeys pair hpair
    exact isPart_entry hunits hkey (ih pair hpair)

/-- A JSON value of any size and depth is passed over, and nothing after it. -/
theorem Valid.skipValue (h : Valid text) (hrest : Closed rest) :
    skipValue (text ++ rest) = .ok rest :=
  h.skipped _ rest (by simp only [List.length_append]; omega) hrest

end TokenGrammar.Json
