import TokenGrammar.Json.Read
import TokenGrammar.Json.Write

/-!
# Numbers, written and read

Digits and integers as they are written are read as what they stand for. A number has no mark at
its end, so what follows it must not go on with it (`Closed`). What a string is written as is
told symbol by symbol (`ofText_writeText`).
-/

namespace TokenGrammar.Json

section
variable {α β : Type}

@[simp] theorem ok_bind (a : α) (next : α → Except Problem β) : (.ok a >>= next) = next a := rfl

@[simp] theorem map_ok (f : α → β) (a : α) : f <$> (.ok a : Except Problem α) = .ok (f a) := rfl

@[simp] theorem pure_eq_ok (a : α) : (pure a : Except Problem α) = .ok a := rfl

theorem bind_eq_ok {x : Except Problem α} {next : α → Except Problem β} :
    x >>= next = .ok b ↔ ∃ a, x = .ok a ∧ next a = .ok b := by
  cases x <;> simp [bind, Except.bind]

theorem exists_of_read_map {x : Except Problem (α × List Symbol)} {f : α → β}
    (h : (do let (a, rest) ← x; return (f a, rest)) = .ok (b, rest)) :
    ∃ a, x = .ok (a, rest) := by
  obtain ⟨⟨a, rest⟩, hread, h⟩ := bind_eq_ok.1 h
  obtain ⟨-, rfl⟩ := Prod.mk.inj (Except.ok.inj h)
  exact ⟨a, hread⟩

end

-- ---------------------------------------------------------------------------
-- Symbols
-- ---------------------------------------------------------------------------

namespace Symbol

@[simp] theorem ofText_append (a b : String) : ofText (a ++ b) = ofText a ++ ofText b := by
  simp [ofText]

theorem ofText_join (texts : List String) :
    ofText (String.join texts) = texts.flatMap ofText := by
  simp only [ofText, String.toList_join, List.map_flatMap]
  rfl

theorem text?_map_char (cs : List Char) : text? (cs.map char) = some (String.ofList cs) := by
  unfold text?
  rw [List.mapM_map]
  change String.ofList <$> cs.mapM (fun c => pure (id c)) = _
  rw [List.mapM_pure, List.map_id]
  rfl

def extendsNumber (s : Symbol) : Bool :=
  s.digit?.isSome || s = .char '.' || Number.isExponentMark s

end Symbol

def Closed (rest : List Symbol) : Prop := ∀ s ∈ rest.head?, s.extendsNumber = false

@[simp] theorem closed_nil : Closed [] := nofun

@[simp] theorem closed_cons : Closed (s :: rest) ↔ s.extendsNumber = false := by
  simp [Closed]

-- ---------------------------------------------------------------------------
-- Digits
-- ---------------------------------------------------------------------------

def digitsOf (n : Nat) : List Nat := (Nat.toDigits 10 n).map fun c => c.toNat - '0'.toNat

theorem digitsOf_eq (n : Nat) :
    digitsOf n = if n < 10 then [n] else digitsOf (n / 10) ++ [n % 10] := by
  have hvalue : ∀ d < 10, d.digitChar.toNat - '0'.toNat = d :=
    fun d hd => Nat.toNat_digitChar_sub_48_of_lt_ten hd
  unfold digitsOf
  rw [Nat.toDigits_eq_if (by decide)]
  split
  · next hlt => rw [List.map_singleton, hvalue n hlt]
  · rw [List.map_append, List.map_singleton, hvalue _ (Nat.mod_lt n (by decide))]

theorem foldl_digitsOf (n : Nat) : (digitsOf n).foldl (10 * · + ·) 0 = n := by
  have hdigits : Nat.ofDigitChars 10 (Nat.toDigits 10 n) 0 = n := Nat.ofDigitChars_ten_toDigits
  rwa [Nat.ofDigitChars_eq_foldl, ← List.foldl_map] at hdigits

theorem digitsOf_ne_nil (n : Nat) : digitsOf n ≠ [] := by
  simp [digitsOf, Nat.toDigits_ne_nil]

theorem digitsOf_zero_cons (h : digitsOf n = 0 :: digits) : digits = [] := by
  induction n using Nat.strongRecOn generalizing digits with
  | ind n ih =>
    rw [digitsOf_eq] at h
    split at h
    · exact (List.cons.inj h).2.symm
    · next hge =>
      obtain ⟨d, ds, hds⟩ := List.exists_cons_of_ne_nil (digitsOf_ne_nil (n / 10))
      rw [hds, List.cons_append] at h
      obtain ⟨rfl, -⟩ := List.cons.inj h
      have hnil := ih (n / 10) (by omega) hds
      have hzero := foldl_digitsOf (n / 10)
      rw [hds, hnil] at hzero
      simp at hzero
      omega

theorem digit?_of_isDigit (h : c.isDigit = true) :
    Text.digit? c = some (c.toNat - '0'.toNat) := by
  unfold Text.digit?
  simp only [Char.isDigit, Bool.and_eq_true, decide_eq_true_eq] at h
  exact if_pos h

theorem readDigits_append {cs : List Char} (h : ∀ c ∈ cs, c.isDigit = true) (hrest : Closed rest) :
    readDigits (cs.map .char ++ rest) = (cs.map (·.toNat - '0'.toNat), rest) := by
  induction cs with
  | nil =>
    cases rest with
    | nil => rfl
    | cons s rest =>
      simp only [closed_cons, Symbol.extendsNumber, Bool.or_eq_false_iff,
        Option.isSome_eq_false_iff, Option.isNone_iff_eq_none] at hrest
      simp [readDigits, hrest.1.1]
  | cons c cs ih =>
    simp only [List.mem_cons, forall_eq_or_imp] at h
    simp [readDigits, Symbol.digit?, digit?_of_isDigit h.1, ih h.2]

-- ---------------------------------------------------------------------------
-- Integers
-- ---------------------------------------------------------------------------

theorem ofText_toString (n : Nat) :
    Symbol.ofText (toString n) = (Nat.toDigits 10 n).map .char := by
  rw [Nat.toString_eq_ofList_toDigits, Symbol.ofText, String.toList_ofList]

namespace Number

theorem absorb_of_lt (h : digits.foldl (10 * · + ·) n < UInt64.size) :
    absorb n digits = (digits.foldl (10 * · + ·) n, []) := by
  have hle : ∀ (digits : List Nat) n, n ≤ digits.foldl (10 * · + ·) n := by
    intro digits
    induction digits with
    | nil => exact Nat.le_refl
    | cons d ds ih =>
      intro n
      exact Nat.le_trans (show n ≤ 10 * n + d by omega) (ih _)
  induction digits generalizing n with
  | nil => rfl
  | cons d ds ih =>
    rw [absorb, if_pos (Nat.lt_of_le_of_lt (hle ds _) h)]
    exact ih h

theorem readAfterWhole_closed (hrest : Closed rest) :
    readAfterWhole negative n [] rest = .ok (whole negative n, rest) := by
  cases rest with
  | nil => rfl
  | cons s rest =>
    simp only [closed_cons, Symbol.extendsNumber, Bool.or_eq_false_iff,
      decide_eq_false_iff_not] at hrest
    obtain ⟨⟨-, hpoint⟩, hmark⟩ := hrest
    unfold readAfterWhole
    split
    · next heq => exact absurd (List.cons.inj heq).1 hpoint
    · next heq =>
      cases heq
      simp [hmark]
    · contradiction

theorem readUnsigned_append (hn : n < UInt64.size) (hrest : Closed rest) :
    readUnsigned negative (Symbol.ofText (toString n) ++ rest) =
      .ok (whole negative n, rest) := by
  have hread : readDigits (Symbol.ofText (toString n) ++ rest) = (digitsOf n, rest) := by
    rw [ofText_toString]
    exact readDigits_append (fun c hc => Nat.isDigit_of_mem_toDigits (by decide) (by decide) hc)
      hrest
  have hsome : readSomeDigits (Symbol.ofText (toString n) ++ rest) = .ok (digitsOf n, rest) := by
    unfold readSomeDigits
    rw [hread]
    cases hdigits : digitsOf n with
    | nil => exact absurd hdigits (digitsOf_ne_nil n)
    | cons d ds => rfl
  have habsorb : absorb 0 (digitsOf n) = (n, []) := by
    rw [absorb_of_lt (by rwa [foldl_digitsOf]), foldl_digitsOf]
  unfold readUnsigned
  rw [hsome, ok_bind]
  split
  · next heq =>
    obtain ⟨hdigits, -⟩ := Prod.mk.inj heq
    exact absurd (digitsOf_zero_cons hdigits) (List.cons_ne_nil _ _)
  · next heq =>
    cases heq
    rw [habsorb]
    exact readAfterWhole_closed hrest

end Number

theorem exists_digit_toString (n : Nat) :
    ∃ c text, Symbol.ofText (toString n) = .char c :: text ∧ c.isDigit = true := by
  obtain ⟨c, cs, hcs⟩ := List.exists_cons_of_ne_nil (Nat.toDigits_ne_nil (n := n) (b := 10))
  refine ⟨c, cs.map .char, by rw [ofText_toString, hcs]; rfl, ?_⟩
  exact Nat.isDigit_of_mem_toDigits (by decide) (by decide) (hcs ▸ List.mem_cons_self)

theorem Number.read_natural (hn : n < UInt64.size) (hrest : Closed rest) :
    Number.read (Symbol.ofText (toString n) ++ rest) = .ok (.integer n, rest) := by
  have hread : readUnsigned false _ = .ok (whole false n, rest) := readUnsigned_append hn hrest
  obtain ⟨c, text, htext, hdigit⟩ := exists_digit_toString n
  rw [htext] at hread ⊢
  unfold Number.read
  split
  · next heq =>
    cases heq
    contradiction
  · exact hread

theorem int64?_toInt (n : Int64) : Text.int64? n.toInt = some n := by
  unfold Text.int64?
  rw [if_pos ⟨n.minValue_le_toInt, n.toInt_le⟩, Int64.ofInt_toInt]

theorem toString_of_neg {i : Int} (h : i < 0) : toString i = "-" ++ toString (-i).toNat := by
  rw [Int.toString_eq_repr, Int.repr_eq_if, if_neg (by omega)]
  rfl

theorem toString_of_nonneg {i : Int} (h : 0 ≤ i) : toString i = toString i.toNat := by
  rw [Int.toString_eq_repr, Int.repr_eq_if, if_pos h]
  rfl

theorem Number.read_int64 (n : Int64) (hrest : Closed rest) :
    Number.read (Symbol.ofText (toString n.toInt) ++ rest) = .ok (.integer n.toInt, rest) := by
  have hleast := n.le_toInt
  have hmost := n.toInt_lt
  have hsize : UInt64.size = 2 ^ 64 := rfl
  by_cases h : n.toInt < 0
  · rw [toString_of_neg h]
    have hwhole : whole true (-n.toInt).toNat = .integer n.toInt := by
      have hvalue : -((-n.toInt).toNat : Int) = n.toInt := by omega
      unfold whole
      rw [if_pos rfl, hvalue, int64?_toInt, if_neg (by simp; omega)]
    rw [Symbol.ofText_append]
    change readUnsigned true (Symbol.ofText (toString (-n.toInt).toNat) ++ rest) = _
    rw [readUnsigned_append (by omega) hrest, hwhole]
  · rw [toString_of_nonneg (by omega), read_natural (by omega) hrest,
      Int.toNat_of_nonneg (by omega)]

theorem exists_starts_natural (n : Nat) :
    ∃ s text, Symbol.ofText (toString n) = s :: text ∧ Number.starts s = true := by
  obtain ⟨c, text, htext, hdigit⟩ := exists_digit_toString n
  exact ⟨_, text, htext, by simp [Number.starts, Symbol.digit?, digit?_of_isDigit hdigit]⟩

theorem exists_starts_integer (i : Int) :
    ∃ s text, Symbol.ofText (toString i) = s :: text ∧ Number.starts s = true := by
  by_cases h : i < 0
  · rw [toString_of_neg h, Symbol.ofText_append]
    exact ⟨.char '-', _, rfl, rfl⟩
  · rw [toString_of_nonneg (by omega)]
    exact exists_starts_natural _

theorem isBlank_of_starts (h : Number.starts s = true) : s.isBlank = false := by
  cases s with
  | stray => rfl
  | char c =>
    rw [← Bool.not_eq_true]
    intro hblank
    simp only [Symbol.isBlank, Bool.or_eq_true, beq_iff_eq] at hblank
    obtain ((rfl | rfl) | rfl) | rfl := hblank <;> revert h <;> decide

@[simp] theorem skipBlanks_cons_of_not_blank (h : s.isBlank = false) (rest : List Symbol) :
    skipBlanks (s :: rest) = s :: rest := by
  simp [skipBlanks, h]

section
variable {accept : Int → Option α}

theorem readInteger_cons (hstarts : Number.starts s = true)
    (hread : Number.read (s :: text) = .ok (.integer n, rest)) (haccept : accept n = some a) :
    readInteger expected accept (s :: text) = .ok (a, rest) := by
  unfold readInteger
  rw [skipBlanks_cons_of_not_blank (isBlank_of_starts hstarts)]
  simp [hstarts, hread, haccept]

end

theorem readNatural_append (hn : n < UInt64.size) (hrest : Closed rest) :
    readNatural (Symbol.ofText (toString n) ++ rest) = .ok (n, rest) := by
  have hread := Number.read_natural hn hrest
  obtain ⟨s, text, htext, hstarts⟩ := exists_starts_natural n
  rw [htext] at hread ⊢
  exact readInteger_cons hstarts hread rfl

theorem readInt64_append (n : Int64) (hrest : Closed rest) :
    readInt64 (Symbol.ofText (toString n.toInt) ++ rest) = .ok (n, rest) := by
  have hread := Number.read_int64 n hrest
  obtain ⟨s, text, htext, hstarts⟩ := exists_starts_integer n.toInt
  rw [htext] at hread ⊢
  exact readInteger_cons hstarts hread (int64?_toInt n)

-- ---------------------------------------------------------------------------
-- Strings
-- ---------------------------------------------------------------------------

theorem toList_codeEscape : ∀ n < 0x20, (codeEscape (Char.ofNat n)).toList =
    ['\\', 'u', '0', '0', (n / 16).digitChar, (n % 16).digitChar] := by decide

theorem ofText_writeText (text : String) : Symbol.ofText (writeText text) =
    .char '"' :: (text.toList.flatMap (fun c => Symbol.ofText (escape c)) ++ [.char '"']) := by
  simp only [writeText, Symbol.ofText_append, Symbol.ofText_join, List.flatMap_map]
  rfl

end TokenGrammar.Json
