import TokenGrammar.Proofs.Lexemes

/-!
# Strings and numbers that are read

A string or a number that is read is passed over by the same symbols (`readString_ok`,
`Number.read_ok`), so that what is read is not only looked at up to where it could end.
-/

namespace TokenGrammar.Json

-- ---------------------------------------------------------------------------
-- Strings
-- ---------------------------------------------------------------------------

def IsUnit (text : List Symbol) : Prop := ∀ units, IsUnits units → IsUnits (text ++ units)

theorem readHex_succ_ok (h : readHex (count + 1) acc input = .ok (n, rest)) :
    ∃ s d tail, input = s :: tail ∧ s.hexDigit? = some d ∧
      readHex count (16 * acc + d) tail = .ok (n, rest) := by
  cases input with
  | nil => contradiction
  | cons s tail =>
    obtain ⟨refused, hrefused, hread⟩ := readHex_by_digit count acc s tail
    rw [hread] at h
    cases hd : s.hexDigit? with
    | some d => exact ⟨s, d, tail, rfl, hd, by rwa [hd] at h⟩
    | none =>
      rw [hd] at h
      cases h
      contradiction

theorem readHex_ok (h : readHex 4 0 input = .ok (n, rest)) :
    ∃ digits, input = digits ++ rest ∧ IsCode digits n := by
  obtain ⟨s₁, a, tail₁, rfl, h₁, h⟩ := readHex_succ_ok h
  rw [Nat.mul_zero, Nat.zero_add] at h
  obtain ⟨s₂, b, tail₂, rfl, h₂, h⟩ := readHex_succ_ok h
  obtain ⟨s₃, c, tail₃, rfl, h₃, h⟩ := readHex_succ_ok h
  obtain ⟨s₄, d, tail₄, rfl, h₄, h⟩ := readHex_succ_ok h
  obtain ⟨rfl, rfl⟩ := Prod.mk.inj (Except.ok.inj h)
  exact ⟨[s₁, s₂, s₃, s₄], rfl, .mk h₁ h₂ h₃ h₄⟩

theorem readWord_ok (h : readWord word input = .ok rest) : input = word.map .char ++ rest := by
  induction word generalizing input with
  | nil => exact Except.ok.inj h
  | cons c word ih =>
    cases input with
    | nil => contradiction
    | cons s input =>
      simp only [readWord] at h
      split at h
      · next hs => rw [hs, ih h, List.map_cons, List.cons_append]
      · contradiction

theorem readMark_ok (h : readMark mark input = .ok rest) :
    skipBlanks input = .char mark :: rest :=
  readWord_ok h

theorem readCode_ok (h : readCode input = .ok (c, rest)) :
    ∃ text, input = text ++ rest ∧ IsUnit (.char '\\' :: .char 'u' :: text) := by
  simp only [readCode, bind_eq_ok] at h
  obtain ⟨⟨first, tail⟩, hfirst, h⟩ := h
  obtain ⟨digits, rfl, hcode⟩ := readHex_ok hfirst
  dsimp only at h
  split at h
  · contradiction
  · split at h
    · simp only [bind_eq_ok] at h
      obtain ⟨tail', hword, ⟨second, tail''⟩, hsecond, h⟩ := h
      obtain rfl := readWord_ok hword
      obtain ⟨digits', rfl, hcode'⟩ := readHex_ok hsecond
      dsimp only at h
      split at h
      · obtain ⟨-, rfl⟩ := Prod.mk.inj (Except.ok.inj h)
        refine ⟨digits ++ .char '\\' :: .char 'u' :: digits', by simp, fun units hunits => ?_⟩
        have hpair := IsUnits.code hcode (.code hcode' hunits)
        simpa using hpair
      · contradiction
    · obtain ⟨-, rfl⟩ := Prod.mk.inj (Except.ok.inj h)
      exact ⟨digits, rfl, fun units hunits => .code hcode hunits⟩

theorem readEscape_ok (h : readEscape input = .ok (c, rest)) :
    ∃ text, input = text ++ rest ∧ IsUnit (.char '\\' :: text) := by
  unfold readEscape at h
  split at h
  · contradiction
  · obtain ⟨text, rfl, hunit⟩ := readCode_ok h
    exact ⟨.char 'u' :: text, rfl, hunit⟩
  · next e tail _ =>
    split at h
    · next hshort =>
      obtain ⟨-, rfl⟩ := Prod.mk.inj (Except.ok.inj h)
      exact ⟨[.char e], rfl, fun units hunits => .short (by rw [hshort]; rfl) hunits⟩
    · contradiction
  · contradiction

theorem readUnit_ok (h : readUnit readEscape input = .ok (unit, rest)) :
    (unit = none ∧ input = .char '"' :: rest) ∨
      ∃ s text, unit = some s ∧ input = text ++ rest ∧ IsUnit text := by
  unfold readUnit at h
  split at h
  · contradiction
  · obtain ⟨rfl, rfl⟩ := Prod.mk.inj (Except.ok.inj h)
    exact .inl ⟨rfl, rfl⟩
  · simp only [bind_eq_ok] at h
    obtain ⟨⟨c, tail⟩, hescape, h⟩ := h
    obtain ⟨rfl, rfl⟩ := Prod.mk.inj (Except.ok.inj h)
    obtain ⟨text, rfl, hunit⟩ := readEscape_ok hescape
    exact .inr ⟨.char c, .char '\\' :: text, rfl, rfl, hunit⟩
  · next c tail hquote hbackslash =>
    split at h
    · contradiction
    · next hcontrol =>
      obtain ⟨rfl, rfl⟩ := Prod.mk.inj (Except.ok.inj h)
      have hplain : (Symbol.char c).isPlain = true := by
        simp only [Symbol.isPlain, Bool.and_eq_true, decide_eq_true_eq]
        exact ⟨⟨by rintro rfl; exact hquote rfl, by rintro rfl; exact hbackslash rfl⟩, by omega⟩
      exact .inr ⟨.char c, [.char c], rfl, rfl, fun units => .plain hplain⟩
  · obtain ⟨rfl, rfl⟩ := Prod.mk.inj (Except.ok.inj h)
    exact .inr ⟨.stray, [.stray], rfl, rfl, fun units => .plain rfl⟩

theorem readUnits_ok (h : readUnits readEscape budget input = .ok (units, rest)) :
    ∃ text, input = text ++ .char '"' :: rest ∧ IsUnits text := by
  induction budget generalizing input units with
  | zero => contradiction
  | succ budget ih =>
    simp only [readUnits, bind_eq_ok] at h
    obtain ⟨⟨unit, tail⟩, hunit, h⟩ := h
    obtain ⟨rfl, rfl⟩ | ⟨s, text, rfl, rfl, hstep⟩ := readUnit_ok hunit
    · obtain ⟨-, rfl⟩ := Prod.mk.inj (Except.ok.inj h)
      exact ⟨[], rfl, .nil⟩
    · simp only [bind_eq_ok] at h
      obtain ⟨⟨units', tail'⟩, hunits, h⟩ := h
      obtain ⟨-, rfl⟩ := Prod.mk.inj (Except.ok.inj h)
      obtain ⟨text', rfl, hrest⟩ := ih hunits
      exact ⟨text ++ text', by simp, hstep text' hrest⟩

theorem readString_ok (h : readString input = .ok (text, rest)) : skipString input = .ok rest := by
  simp only [readString, bind_eq_ok] at h
  obtain ⟨⟨units, tail⟩, hunits, h⟩ := h
  obtain ⟨body, rfl, hbody⟩ := readUnits_ok hunits
  dsimp only at h
  split at h
  · obtain ⟨-, rfl⟩ := Prod.mk.inj (Except.ok.inj h)
    exact hbody.skipString _
  · contradiction

-- ---------------------------------------------------------------------------
-- Numbers
-- ---------------------------------------------------------------------------

namespace Number

theorem readSomeDigits_ok (h : readSomeDigits input = .ok (digits, rest)) :
    ∃ d ds, digits = d :: ds ∧ readDigits input = (d :: ds, rest) := by
  unfold readSomeDigits at h
  cases hread : readDigits input with
  | mk read tail =>
    rw [hread] at h
    cases read with
    | nil => cases tail <;> contradiction
    | cons d ds =>
      obtain ⟨rfl, rfl⟩ := Prod.mk.inj (Except.ok.inj h)
      exact ⟨d, ds, rfl, rfl⟩

theorem skipDigits_of_readSomeDigits (h : readSomeDigits input = .ok (digits, rest)) :
    skipDigits input = .ok rest := by
  obtain ⟨d, ds, -, hread⟩ := readSomeDigits_ok h
  simp [skipDigits, hread]

theorem readExponent_ok (hmark : isExponentMark s = true)
    (h : readExponent input = .ok (e, rest)) : skipExponent (s :: input) = .ok rest := by
  simp only [readExponent, bind_eq_ok] at h
  obtain ⟨⟨digits, tail⟩, hdigits, h⟩ := h
  obtain ⟨-, rfl⟩ := Prod.mk.inj (Except.ok.inj h)
  have hskip := skipDigits_of_readSomeDigits hdigits
  simp only [skipExponent, hmark, if_true]
  split at hskip
  all_goals exact hskip

theorem readScale_ok (h : readScale negative n e input = .ok (x, rest)) :
    skipExponent input = .ok rest := by
  unfold readScale at h
  split at h
  · next s tail =>
    split at h
    · next hmark =>
      simp only [bind_eq_ok] at h
      obtain ⟨⟨exponent, r⟩, hexponent, y, -, h⟩ := h
      obtain ⟨-, rfl⟩ := Prod.mk.inj (Except.ok.inj h)
      exact readExponent_ok hmark hexponent
    · next hmark =>
      simp only [bind_eq_ok] at h
      obtain ⟨y, -, h⟩ := h
      obtain ⟨-, rfl⟩ := Prod.mk.inj (Except.ok.inj h)
      simp [skipExponent, hmark]
  · simp only [bind_eq_ok] at h
    obtain ⟨y, -, h⟩ := h
    obtain ⟨-, rfl⟩ := Prod.mk.inj (Except.ok.inj h)
    rfl

theorem readAfterWhole_ok (hzero : d = 0 → ds = []) (hread : readDigits input = (d :: ds, tail))
    (h : readAfterWhole negative n left tail = .ok (x, rest)) :
    skipUnsigned input = .ok rest := by
  unfold readAfterWhole at h
  split at h
  · next r =>
    simp only [bind_eq_ok] at h
    obtain ⟨⟨fraction, r'⟩, hfraction, h⟩ := h
    rw [skipUnsigned_point hzero hread, skipDigits_of_readSomeDigits hfraction, ok_bind]
    exact readScale_ok h
  · next s r hpoint =>
    have hhead : (s :: r).head? ≠ some (.char '.') := by
      rintro ⟨⟩
      exact hpoint rfl
    rw [skipUnsigned_whole hzero hread hhead]
    split at h
    · exact readScale_ok h
    · next hmark =>
      simp only [Bool.or_eq_true, not_or] at hmark
      obtain ⟨-, rfl⟩ := Prod.mk.inj (Except.ok.inj h)
      simp [skipExponent, hmark.1]
  · rw [skipUnsigned_whole hzero hread (by simp)]
    split at h
    · obtain ⟨-, rfl⟩ := Prod.mk.inj (Except.ok.inj h)
      rfl
    · exact readScale_ok h

theorem readUnsigned_ok (h : readUnsigned negative input = .ok (x, rest)) :
    skipUnsigned input = .ok rest := by
  simp only [readUnsigned, bind_eq_ok] at h
  obtain ⟨⟨digits, tail⟩, hdigits, h⟩ := h
  obtain ⟨d, ds, rfl, hread⟩ := readSomeDigits_ok hdigits
  split at h
  · contradiction
  · next hlone heq =>
    obtain ⟨rfl, rfl⟩ := Prod.mk.inj heq
    refine readAfterWhole_ok ?_ hread h
    rintro rfl
    cases ds with
    | nil => rfl
    | cons d ds => exact (hlone d ds rfl).elim

theorem read_ok (h : Number.read input = .ok (x, rest)) : Number.skip input = .ok rest := by
  unfold Number.read at h
  unfold Number.skip
  split at h
  · exact readUnsigned_ok h
  · exact readUnsigned_ok h

end Number

end TokenGrammar.Json
