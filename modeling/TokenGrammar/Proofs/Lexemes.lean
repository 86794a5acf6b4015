import Mathlib.Data.List.DropRight
import TokenGrammar.Proofs.Entries

/-!
# Strings and numbers are passed over

The strings and the numbers of JSON as texts (`IsUnits`, `IsNumber`), told without the reader.
Each of them is passed over as a whole (`IsUnits.skipString`, `IsNumber.skip`), a number in front
of whatever does not go on with it.
-/

namespace TokenGrammar.Json

-- ---------------------------------------------------------------------------
-- Blanks
-- ---------------------------------------------------------------------------

structure Blanks where
  text : List Symbol
  blank : ∀ s ∈ text, s.isBlank = true

def Blanks.none : Blanks := ⟨[], List.forall_mem_nil _⟩

theorem Blanks.ignored (gap : Blanks) {read : List Symbol → β}
    (h : ∀ input, read (skipBlanks input) = read input) (input : List Symbol) :
    read (gap.text ++ input) = read input := by
  rw [← h, skipBlanks_append gap.blank, h]

structure Spaced where
  before : Blanks
  core : List Symbol
  after : Blanks

namespace Spaced

def text (part : Spaced) : List Symbol := part.before.text ++ part.core ++ part.after.text

def tight (core : List Symbol) : Spaced := ⟨.none, core, .none⟩

@[simp] theorem text_tight (core : List Symbol) : (tight core).text = core := by
  simp [text, tight, Blanks.none]

theorem length_core_le (part : Spaced) : part.core.length ≤ part.text.length := by
  simp only [text, List.length_append]
  omega

theorem skipBlanks_text (part : Spaced) (hcore : part.core = s :: tail)
    (hblank : s.isBlank = false) (rest : List Symbol) :
    skipBlanks (part.text ++ rest) = part.core ++ (part.after.text ++ rest) := by
  rw [text, List.append_assoc, List.append_assoc, skipBlanks_append part.before.blank, hcore,
    List.cons_append, skipBlanks_cons_of_not_blank hblank]

end Spaced

theorem skipBlanks_skipBlanks (input : List Symbol) :
    skipBlanks (skipBlanks input) = skipBlanks input :=
  List.dropWhile_idempotent _ _

-- ---------------------------------------------------------------------------
-- Strings
-- ---------------------------------------------------------------------------

def Symbol.isPlain : Symbol → Bool
  | .char c => c ≠ '"' && c ≠ '\\' && 0x20 ≤ c.toNat
  | .stray => true

inductive IsCode : List Symbol → Nat → Prop
  | mk (h₁ : s₁.hexDigit? = some a) (h₂ : s₂.hexDigit? = some b) (h₃ : s₃.hexDigit? = some c)
      (h₄ : s₄.hexDigit? = some d) :
      IsCode [s₁, s₂, s₃, s₄] (16 * (16 * (16 * a + b) + c) + d)

inductive IsUnits : List Symbol → Prop
  | nil : IsUnits []
  | plain (hplain : s.isPlain = true) (hrest : IsUnits units) : IsUnits (s :: units)
  | short (hshort : (shortEscape? c).isSome = true) (hrest : IsUnits units) :
      IsUnits (.char '\\' :: .char c :: units)
  | code (hcode : IsCode digits n) (hrest : IsUnits units) :
      IsUnits (.char '\\' :: .char 'u' :: (digits ++ units))

def quoted (units : List Symbol) : List Symbol := .char '"' :: (units ++ [.char '"'])

theorem readUnit_plain (escape : Reader Char) (hplain : s.isPlain = true) (rest : List Symbol) :
    readUnit escape (s :: rest) = .ok (some s, rest) := by
  cases s with
  | stray => rfl
  | char c =>
    simp only [Symbol.isPlain, Bool.and_eq_true, decide_eq_true_eq] at hplain
    obtain ⟨⟨hquote, hbackslash⟩, hcontrol⟩ := hplain
    unfold readUnit
    split
    case h_4 heq =>
      cases heq
      rw [if_neg (by omega)]
    all_goals simp_all

theorem readHex_by_digit (count acc : Nat) (s : Symbol) (rest : List Symbol) :
    ∃ refused : Except Problem (Nat × List Symbol), refused.toOption = none ∧
      readHex (count + 1) acc (s :: rest) = match s.hexDigit? with
        | some d => readHex count (16 * acc + d) rest
        | none => refused := by
  refine ⟨_, ?_, rfl⟩
  split <;> rfl

theorem readHex_cons (h : s.hexDigit? = some d) (count acc : Nat) (rest : List Symbol) :
    readHex (count + 1) acc (s :: rest) = readHex count (16 * acc + d) rest := by
  obtain ⟨refused, -, hread⟩ := readHex_by_digit count acc s rest
  rw [hread, h]

theorem IsCode.readHex (h : IsCode digits n) (rest : List Symbol) :
    readHex 4 0 (digits ++ rest) = .ok (n, rest) := by
  obtain ⟨h₁, h₂, h₃, h₄⟩ := h
  simp only [List.cons_append, List.nil_append]
  rw [readHex_cons h₁, readHex_cons h₂, readHex_cons h₃, readHex_cons h₄, Nat.mul_zero,
    Nat.zero_add]
  rfl

theorem readUnit_skipEscape_short (hshort : (shortEscape? c).isSome = true) (rest : List Symbol) :
    readUnit skipEscape (.char '\\' :: .char c :: rest) = .ok (some (.char c), rest) := by
  have hu : c ≠ 'u' := by rintro rfl; contradiction
  have hskip : skipEscape (.char c :: rest) = .ok (c, rest) := by
    unfold skipEscape
    split
    · contradiction
    · next heq => exact absurd (Symbol.char.inj (List.cons.inj heq).1) hu
    · next heq =>
      cases heq
      rw [if_pos hshort]
    · next heq => cases heq
  simp [readUnit, hskip]

theorem IsCode.readUnit_skipEscape (h : IsCode digits n) (rest : List Symbol) :
    readUnit skipEscape (.char '\\' :: .char 'u' :: (digits ++ rest)) =
      .ok (some (.char 'u'), rest) := by
  simp [readUnit, skipEscape, h.readHex]

theorem readUnits_cons {escape : Reader Char} (h : readUnit escape input = .ok (some s, rest₁))
    (hrest : readUnits escape budget rest₁ = .ok (units, rest₂)) :
    readUnits escape (budget + 1) input = .ok (s :: units, rest₂) := by
  simp [readUnits, h, hrest]

theorem IsUnits.readUnits_skipEscape (h : IsUnits units) (hbudget : units.length < budget)
    (rest : List Symbol) :
    ∃ read, readUnits skipEscape budget (units ++ .char '"' :: rest) = .ok (read, rest) := by
  induction h generalizing budget with
  | nil =>
    cases budget with
    | zero => contradiction
    | succ budget => exact ⟨[], rfl⟩
  | plain hplain _ ih =>
    cases budget with
    | zero => contradiction
    | succ budget =>
      obtain ⟨read, hread⟩ := ih (Nat.succ_lt_succ_iff.1 hbudget)
      exact ⟨_, readUnits_cons (readUnit_plain _ hplain _) hread⟩
  | short hshort _ ih =>
    cases budget with
    | zero => contradiction
    | succ budget =>
      simp only [List.length_cons] at hbudget
      obtain ⟨read, hread⟩ := ih (show _ < budget by omega)
      exact ⟨_, readUnits_cons (readUnit_skipEscape_short hshort _) hread⟩
  | code hcode _ ih =>
    cases budget with
    | zero => contradiction
    | succ budget =>
      simp only [List.length_cons, List.length_append] at hbudget
      obtain ⟨read, hread⟩ := ih (show _ < budget by omega)
      simp only [List.cons_append, List.append_assoc]
      exact ⟨_, readUnits_cons (hcode.readUnit_skipEscape _) hread⟩

theorem IsUnits.skipString (h : IsUnits units) (rest : List Symbol) :
    skipString (units ++ .char '"' :: rest) = .ok rest := by
  have hbudget : units.length < (units ++ .char '"' :: rest).length := by
    simp only [List.length_append, List.length_cons]
    omega
  obtain ⟨read, hread⟩ := h.readUnits_skipEscape hbudget rest
  rw [Json.skipString, hread]
  rfl

-- ---------------------------------------------------------------------------
-- Numbers
-- ---------------------------------------------------------------------------

def IsDigits (text : List Symbol) : Prop := text ≠ [] ∧ ∀ s ∈ text, s.digit?.isSome = true

def IsWhole (text : List Symbol) : Prop :=
  IsDigits text ∧ (text.head? = some (.char '0') → text.length = 1)

inductive IsFraction : List Symbol → Prop
  | absent : IsFraction []
  | present (hdigits : IsDigits digits) : IsFraction (.char '.' :: digits)

inductive IsExponent : List Symbol → Prop
  | absent : IsExponent []
  | present (hmark : Number.isExponentMark mark = true)
      (hsign : sign ∈ [[], [.char '+'], [.char '-']]) (hdigits : IsDigits digits) :
      IsExponent (mark :: (sign ++ digits))

inductive IsNumber : List Symbol → Prop
  | mk (hsign : sign ∈ [[], [.char '-']]) (hwhole : IsWhole whole)
      (hfraction : IsFraction fraction) (hexponent : IsExponent exponent) :
      IsNumber (sign ++ (whole ++ (fraction ++ exponent)))

theorem readDigits_stop (htext : ∀ s ∈ text, s.digit?.isSome = true)
    (hrest : ∀ s ∈ rest.head?, s.digit? = none) :
    readDigits (text ++ rest) = (text.filterMap Symbol.digit?, rest) := by
  induction text with
  | nil =>
    cases rest with
    | nil => rfl
    | cons s rest => simp [readDigits, hrest s rfl]
  | cons s text ih =>
    rw [List.forall_mem_cons] at htext
    obtain ⟨d, hd⟩ := Option.isSome_iff_exists.1 htext.1
    simp [readDigits, hd, ih htext.2]

theorem Closed.digit?_eq_none (h : Closed rest) : ∀ s ∈ rest.head?, s.digit? = none := by
  intro s hs
  have hextends := h s hs
  simp only [Symbol.extendsNumber, Bool.or_eq_false_iff, Option.isSome_eq_false_iff,
    Option.isNone_iff_eq_none] at hextends
  exact hextends.1.1

theorem digit?_eq_none_of_isExponentMark (h : Number.isExponentMark s = true) :
    s.digit? = none := by
  simp only [Number.isExponentMark, Bool.or_eq_true, decide_eq_true_eq] at h
  obtain rfl | rfl := h <;> rfl

namespace IsDigits

variable {digits : List Symbol} (h : IsDigits digits)
include h

theorem exists_cons : ∃ s d rest, digits = s :: rest ∧ s.digit? = some d := by
  obtain ⟨s, rest, rfl⟩ := List.exists_cons_of_ne_nil h.1
  obtain ⟨d, hd⟩ := Option.isSome_iff_exists.1 (h.2 s List.mem_cons_self)
  exact ⟨s, d, rest, rfl, hd⟩

theorem readDigits (hrest : ∀ s ∈ rest.head?, s.digit? = none) :
    ∃ d ds, readDigits (digits ++ rest) = (d :: ds, rest) := by
  have hread := readDigits_stop h.2 hrest
  obtain ⟨s, d, digits, rfl, hd⟩ := h.exists_cons
  exact ⟨d, digits.filterMap Symbol.digit?, by rw [hread]; simp [hd]⟩

theorem skipDigits (hrest : ∀ s ∈ rest.head?, s.digit? = none) :
    Number.skipDigits (digits ++ rest) = .ok rest := by
  obtain ⟨d, ds, hread⟩ := h.readDigits hrest
  simp [Number.skipDigits, hread]

end IsDigits

theorem IsExponent.skip (h : IsExponent text) (hrest : Closed rest) :
    Number.skipExponent (text ++ rest) = .ok rest := by
  cases h with
  | absent =>
    cases rest with
    | nil => rfl
    | cons s rest =>
      simp only [closed_cons, Symbol.extendsNumber, Bool.or_eq_false_iff] at hrest
      simp [Number.skipExponent, hrest.2]
  | @present mark sign digits hmark hsign hdigits =>
    have hskip := hdigits.skipDigits hrest.digit?_eq_none
    simp only [List.mem_cons, List.not_mem_nil, or_false] at hsign
    obtain rfl | rfl | rfl := hsign
    · obtain ⟨s, d, digits, rfl, hd⟩ := hdigits.exists_cons
      simp only [Number.skipExponent, hmark, if_true, List.nil_append, List.cons_append]
      split
      · next heq =>
        cases heq
        contradiction
      · next heq =>
        cases heq
        contradiction
      · exact hskip
    · simpa [Number.skipExponent, hmark] using hskip
    · simpa [Number.skipExponent, hmark] using hskip

theorem digit?_head_eq_none (hfraction : IsFraction fraction) (hexponent : IsExponent exponent)
    (hrest : Closed rest) : ∀ s ∈ (fraction ++ (exponent ++ rest)).head?, s.digit? = none := by
  cases hfraction with
  | present => simp [Symbol.digit?, Text.digit?]
  | absent =>
    cases hexponent with
    | absent => exact hrest.digit?_eq_none
    | present hmark =>
      rintro s ⟨⟩
      exact digit?_eq_none_of_isExponentMark hmark

theorem Symbol.eq_of_digit?_eq_zero {s : Symbol} (h : s.digit? = some 0) : s = .char '0' := by
  cases s with
  | stray => contradiction
  | char c =>
    simp only [Symbol.digit?, Text.digit?] at h
    split at h
    · next hc =>
      have hle : '0'.toNat ≤ c.toNat := hc.1
      have hzero : c.toNat - '0'.toNat = 0 := Option.some.inj h
      have hnat : c.toNat = '0'.toNat := by omega
      rw [← Char.ofNat_toNat c, hnat]
      rfl
    · contradiction

theorem IsWhole.readDigits (hwhole : IsWhole whole) (hrest : ∀ s ∈ rest.head?, s.digit? = none) :
    ∃ d ds, readDigits (whole ++ rest) = (d :: ds, rest) ∧ (d = 0 → ds = []) := by
  obtain ⟨⟨hne, hdigits⟩, hzero⟩ := hwhole
  obtain ⟨s, whole, rfl⟩ := List.exists_cons_of_ne_nil hne
  obtain ⟨d, hd⟩ := Option.isSome_iff_exists.1 (hdigits s List.mem_cons_self)
  refine ⟨d, whole.filterMap Symbol.digit?, ?_, ?_⟩
  · rw [readDigits_stop hdigits hrest, List.filterMap_cons_some hd]
  · rintro rfl
    have hlength := hzero (by rw [Symbol.eq_of_digit?_eq_zero hd, List.head?_cons])
    rw [List.length_eq_zero_iff.1 (Nat.succ.inj hlength)]
    rfl

section
variable {d : Nat} {ds : List Nat} (hzero : d = 0 → ds = [])
include hzero

theorem skipUnsigned_point (hread : readDigits input = (d :: ds, .char '.' :: rest)) :
    Number.skipUnsigned input = Number.skipDigits rest >>= Number.skipExponent := by
  unfold Number.skipUnsigned
  rw [hread]
  split
  · next heq => cases heq
  · next heq =>
    cases heq
    exact absurd (hzero rfl) (List.cons_ne_nil _ _)
  · next heq =>
    cases heq
    rfl
  · next hpoint heq =>
    cases heq
    exact (hpoint _ rfl).elim

theorem skipUnsigned_whole (hread : readDigits input = (d :: ds, rest))
    (hpoint : rest.head? ≠ some (.char '.')) :
    Number.skipUnsigned input = Number.skipExponent rest := by
  unfold Number.skipUnsigned
  rw [hread]
  split
  · next heq => cases heq
  · next heq =>
    cases heq
    exact absurd (hzero rfl) (List.cons_ne_nil _ _)
  · next heq =>
    cases heq
    exact absurd rfl hpoint
  · next heq =>
    cases heq
    rfl

end

theorem IsExponent.head_ne_point (h : IsExponent text) (hrest : Closed rest) :
    (text ++ rest).head? ≠ some (.char '.') := by
  intro heq
  cases h with
  | absent => exact absurd (hrest _ heq) (by decide)
  | present hmark =>
    cases heq
    contradiction

theorem IsWhole.skipUnsigned (hwhole : IsWhole whole) (hfraction : IsFraction fraction)
    (hexponent : IsExponent exponent) (hrest : Closed rest) :
    Number.skipUnsigned (whole ++ (fraction ++ (exponent ++ rest))) = .ok rest := by
  have hstop := digit?_head_eq_none hfraction hexponent hrest
  obtain ⟨d, ds, hread, hzero⟩ := hwhole.readDigits hstop
  cases hfraction with
  | absent =>
    rw [skipUnsigned_whole hzero hread (hexponent.head_ne_point hrest)]
    exact hexponent.skip hrest
  | present hdigits =>
    have hskip := hdigits.skipDigits (digit?_head_eq_none .absent hexponent hrest)
    simp only [List.nil_append, List.cons_append] at hskip hread ⊢
    rw [skipUnsigned_point hzero hread, hskip, ok_bind, hexponent.skip hrest]

theorem IsNumber.skip (h : IsNumber text) (hrest : Closed rest) :
    Number.skip (text ++ rest) = .ok rest := by
  obtain ⟨hsign, hwhole, hfraction, hexponent⟩ := h
  have hskip := hwhole.skipUnsigned hfraction hexponent hrest
  simp only [List.append_assoc]
  simp only [List.mem_cons, List.not_mem_nil, or_false] at hsign
  obtain rfl | rfl := hsign
  · obtain ⟨s, d, whole, rfl, hd⟩ := hwhole.1.exists_cons
    unfold Number.skip
    split
    · next heq =>
      cases heq
      contradiction
    · exact hskip
  · exact hskip

theorem IsNumber.exists_starts (h : IsNumber text) :
    ∃ s rest, text = s :: rest ∧ Number.starts s = true := by
  obtain ⟨hsign, hwhole, -, -⟩ := h
  simp only [List.mem_cons, List.not_mem_nil, or_false] at hsign
  obtain rfl | rfl := hsign
  · obtain ⟨s, d, whole, rfl, hd⟩ := hwhole.1.exists_cons
    exact ⟨s, _, rfl, by simp [Number.starts, hd]⟩
  · exact ⟨_, _, rfl, rfl⟩

end TokenGrammar.Json
