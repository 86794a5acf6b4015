import TokenGrammar.Proofs.Readings
import TokenGrammar.Proofs.Skipping

/-!
# Where a value ends

Whether a skipper goes up to a place with some budget (`Passes`) does not depend on the budget: a
JSON value ends in one place (`Valid.extent_unique`). A single value that is read ends where it
is passed over (`SameExtent`).
-/

namespace TokenGrammar.Json

-- ---------------------------------------------------------------------------
-- Budgets
-- ---------------------------------------------------------------------------

def Within (skip skip' : Skipper) : Prop := ∀ input rest, skip input = .ok rest →
  skip' input = .ok rest

theorem Within.bind {x x' : Except Problem (List Symbol)} (hx : ∀ a, x = .ok a → x' = .ok a)
    (h : Within skip skip') : ∀ rest, x >>= skip = .ok rest → x' >>= skip' = .ok rest := by
  intro rest hok
  obtain ⟨mid, hmid, hrest⟩ := bind_eq_ok.1 hok
  rw [hx mid hmid, ok_bind, h mid rest hrest]

theorem skip_within_succ (budget : Nat) :
    Within (skipValueUpTo budget) (skipValueUpTo (budget + 1)) ∧
    Within (skipItemsUpTo budget) (skipItemsUpTo (budget + 1)) ∧
    Within (skipEntryUpTo budget) (skipEntryUpTo (budget + 1)) ∧
    Within (skipEntriesUpTo budget) (skipEntriesUpTo (budget + 1)) := by
  induction budget with
  | zero =>
    refine ⟨?_, ?_, ?_, ?_⟩ <;> intro input rest h
    · simp [skipValueUpTo] at h
    · simp [skipItemsUpTo] at h
    · simp [skipEntryUpTo] at h
    · simp [skipEntriesUpTo] at h
  | succ budget ih =>
    obtain ⟨hvalue, hitems, hentry, hentries⟩ := ih
    refine ⟨?_, ?_, ?_, ?_⟩
    · intro input rest h
      rw [skipValueUpTo] at h ⊢
      revert h
      split
      case h_6 =>
        split
        · exact id
        · exact id
        · exact Within.bind (hvalue _) hitems rest
      case h_7 =>
        split
        · exact id
        · exact id
        · exact Within.bind (hentry _) hentries rest
      all_goals exact id
    · intro input rest h
      rw [skipItemsUpTo] at h ⊢
      revert h
      split
      case h_3 => exact Within.bind (hvalue _) hitems rest
      all_goals exact id
    · intro input rest h
      simp only [skipEntryUpTo, bind_eq_ok] at h ⊢
      obtain ⟨text, hmark, r₁, hstring, r₂, hcolon, hrest⟩ := h
      exact ⟨text, hmark, r₁, hstring, r₂, hcolon, hvalue r₂ rest hrest⟩
    · intro input rest h
      rw [skipEntriesUpTo] at h ⊢
      revert h
      split
      case h_3 => exact Within.bind (hentry _) hentries rest
      all_goals exact id

def Passes (skip : Nat → Skipper) (input rest : List Symbol) : Prop :=
  ∃ budget, skip budget input = .ok rest

def Grows (skip : Nat → Skipper) : Prop := ∀ budget, Within (skip budget) (skip (budget + 1))

theorem Grows.le {skip : Nat → Skipper} (h : Grows skip) (hle : n ≤ m) :
    Within (skip n) (skip m) := by
  induction hle with
  | refl => exact fun _ _ => id
  | step _ ih => exact fun input rest hok => h _ input rest (ih input rest hok)

theorem grows_skipValueUpTo : Grows skipValueUpTo := fun n => (skip_within_succ n).1
theorem grows_skipItemsUpTo : Grows skipItemsUpTo := fun n => (skip_within_succ n).2.1
theorem grows_skipEntryUpTo : Grows skipEntryUpTo := fun n => (skip_within_succ n).2.2.1
theorem grows_skipEntriesUpTo : Grows skipEntriesUpTo := fun n => (skip_within_succ n).2.2.2

theorem Passes.unique {skip : Nat → Skipper} (hgrows : Grows skip) (h : Passes skip input rest)
    (h' : Passes skip input rest') : rest = rest' := by
  obtain ⟨n, hn⟩ := h
  obtain ⟨m, hm⟩ := h'
  have hleft := hgrows.le (Nat.le_max_left n m) input rest hn
  have hright := hgrows.le (Nat.le_max_right n m) input rest' hm
  exact Except.ok.inj (hleft.symm.trans hright)

theorem Passes.both {skip skip' : Nat → Skipper} (hgrows : Grows skip) (hgrows' : Grows skip')
    (h : Passes skip input mid) (h' : Passes skip' mid rest) :
    ∃ budget, skip budget input >>= skip' budget = .ok rest := by
  obtain ⟨n, hn⟩ := h
  obtain ⟨m, hm⟩ := h'
  refine ⟨max n m, ?_⟩
  rw [hgrows.le (Nat.le_max_left n m) input mid hn, ok_bind,
    hgrows'.le (Nat.le_max_right n m) mid rest hm]

/-- A JSON value ends in one place, wherever a skipper is content to end. -/
theorem Valid.extent_unique (h : Valid text) (hrest : Closed rest)
    (hpasses : Passes skipValueUpTo (text ++ rest) rest') : rest' = rest :=
  hpasses.unique grows_skipValueUpTo ⟨_, h.skipValue hrest⟩

-- ---------------------------------------------------------------------------
-- Parts of values
-- ---------------------------------------------------------------------------

theorem Passes.value_of_blanks (h : Passes skipValueUpTo (skipBlanks input) rest) :
    Passes skipValueUpTo input rest := by
  obtain ⟨budget, hok⟩ := h
  exact ⟨budget, by rwa [skipValueUpTo_skipBlanks] at hok⟩

theorem Passes.single (hinput : skipBlanks input = s :: tail)
    (h : skipValueUpTo 1 (s :: tail) = .ok rest) : Passes skipValueUpTo input rest :=
  ⟨1, by rw [← skipValueUpTo_skipBlanks, hinput, h]⟩

theorem Passes.entry (hkey : skipBlanks input = .char '"' :: text)
    (hstring : skipString text = .ok r₁) (hcolon : readMark ':' r₁ = .ok r₂)
    (hvalue : Passes skipValueUpTo r₂ rest) : Passes skipEntryUpTo input rest := by
  obtain ⟨budget, hok⟩ := hvalue
  refine ⟨budget + 1, ?_⟩
  simp [skipEntryUpTo, readKeyMark, hkey, hstring, hcolon, hok]

namespace Bracketed

variable {opens closes : Symbol} {part later : Nat → Skipper}
  (h : Bracketed opens closes part later)
include h

theorem passes_empty (hinput : skipBlanks input = closes :: rest) :
    Passes skipValueUpTo (opens :: input) rest :=
  ⟨1, h.empty hinput 0⟩

theorem passes_close (hinput : skipBlanks input = closes :: rest) : Passes later input rest :=
  ⟨1, by rw [← h.later_skipBlanks, hinput, h.close]⟩

variable (hpart : Grows part) (hlater : Grows later)
include hpart hlater

theorem passes_first (hinput : skipBlanks input = s :: text) (hs : s ≠ closes)
    (hfirst : Passes part input mid) (hrest : Passes later mid rest) :
    Passes skipValueUpTo (opens :: input) rest := by
  obtain ⟨budget, hok⟩ := hfirst.both hpart hlater hrest
  exact ⟨budget + 1, by rw [h.first hinput hs, hok]⟩

theorem passes_comma (hinput : skipBlanks input = .char ',' :: text)
    (hnext : Passes part text mid) (hrest : Passes later mid rest) :
    Passes later input rest := by
  obtain ⟨budget, hok⟩ := hnext.both hpart hlater hrest
  exact ⟨budget + 1, by rw [← h.later_skipBlanks, hinput, h.comma, hok]⟩

end Bracketed

-- ---------------------------------------------------------------------------
-- Single values
-- ---------------------------------------------------------------------------

def SameExtent (read : Reader α) : Prop :=
  ∀ ⦃input a rest⦄, read input = .ok (a, rest) → Passes skipValueUpTo input rest

theorem refuse_ne_ok : refuse expected input ≠ .ok a := by
  intro h
  obtain ⟨found, -, hthrow⟩ := bind_eq_ok.1 h
  contradiction

theorem readInteger_extent (expected : String) (accept : Int → Option α) :
    SameExtent (readInteger expected accept) := by
  intro input a rest h
  unfold readInteger at h
  split at h
  · contradiction
  · next s tail hinput =>
    split at h
    · next hstarts =>
      obtain ⟨⟨x, tail'⟩, hnumber, h⟩ := bind_eq_ok.1 h
      have hskip := Number.read_ok hnumber
      have hpasses : Passes skipValueUpTo input tail' :=
        .single hinput (by rw [skipValueUpTo_number hstarts, hskip])
      cases x with
      | integer n =>
        dsimp only at h
        split at h
        · obtain ⟨-, rfl⟩ := Prod.mk.inj (Except.ok.inj h)
          exact hpasses
        · contradiction
      | float x => exact absurd h refuse_ne_ok
    · exact absurd h refuse_ne_ok

theorem readBoolean_extent : SameExtent readBoolean := by
  intro input a rest h
  unfold readBoolean at h
  split at h
  · contradiction
  · next tail hinput =>
    obtain ⟨tail', hword, h⟩ := bind_eq_ok.1 h
    obtain ⟨-, rfl⟩ := Prod.mk.inj (Except.ok.inj h)
    exact .single hinput hword
  · next tail hinput =>
    obtain ⟨tail', hword, h⟩ := bind_eq_ok.1 h
    obtain ⟨-, rfl⟩ := Prod.mk.inj (Except.ok.inj h)
    exact .single hinput hword
  · exact absurd h refuse_ne_ok

theorem readText_extent : SameExtent readText := by
  intro input a rest h
  unfold readText at h
  split at h
  · contradiction
  · next tail hinput => exact .single hinput (readString_ok h)
  · exact absurd h refuse_ne_ok

theorem readNull_ok (h : readNull expected input = .ok rest) :
    Passes skipValueUpTo input rest := by
  unfold readNull at h
  split at h
  · contradiction
  · next tail hinput => exact .single hinput h
  · exact absurd h refuse_ne_ok

end TokenGrammar.Json
