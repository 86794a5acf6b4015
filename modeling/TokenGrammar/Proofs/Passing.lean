import TokenGrammar.Proofs.Classification
import TokenGrammar.Proofs.Grammar

/-!
# Parsers that pass fatal failures on

Most parsers give up when a part of theirs fails for good, and return its failure as
it is; a sequence may give it a place (`Parser.body_passesOn`). The others, those for
which `hidesFailures`, turn any failure into something else.
-/

namespace TokenGrammar

variable {V : Type}

namespace Action

/-- Whether an action comes to an end, one of `ends`, without doing anything more than
to note something in the context. -/
def GivesUp (ends : α → Prop) : Action (Parser V) V α → Prop
  | .done x => ends x
  | .logFailure _ _ next | .report _ next | .clearPartials next | .keepPartials _ next =>
    next.GivesUp ends
  | _ => False

/-- Whether an action gives up on every fatal failure `f` it meets, with an answer `x`
for which `rel f x`. What code of the grammar's author meets counts if `inside`. -/
def PassesOn (inside : Bool) : {α : Type} → (rel : Failure → α → Prop) →
    Action (Parser V) V α → Prop
  | _, _, .done _ => True
  | _, rel, .call _ _ next =>
    (∀ f, f.Fatal → (next (.error f)).GivesUp (rel f)) ∧ ∀ o, (next o).PassesOn inside rel
  | _, rel, .guarded _ _ region next =>
    region.PassesOn inside (fun f o => (next o).GivesUp (rel f)) ∧
      (∀ f, f.Fatal → (next (.error f)).GivesUp (rel f)) ∧ ∀ o, (next o).PassesOn inside rel
  | _, rel, .client code next =>
    (inside = true → code.PassesOn inside fun f r => (next r).GivesUp (rel f)) ∧
      (∀ f, f.Fatal → (next (.error f)).GivesUp (rel f)) ∧ ∀ r, (next r).PassesOn inside rel
  | _, rel, .askMode next => ∀ mode, (next mode).PassesOn inside rel
  | _, rel, .logFailure _ _ next | _, rel, .report _ next | _, rel, .clearPartials next
  | _, rel, .keepPartials _ next | _, rel, .checkReproduction _ _ _ next
  | _, rel, .configure _ next => next.PassesOn inside rel

theorem GivesUp.mono {a : Action (Parser V) V α} (h : a.GivesUp ends)
    (himp : ∀ x, ends x → ends' x) : a.GivesUp ends' := by
  induction a with
  | done x => exact himp x h
  | logFailure _ _ next ih | report _ next ih | clearPartials next ih | keepPartials _ next ih =>
    exact ih h himp
  | _ => exact h.elim

theorem PassesOn.mono {a : Action (Parser V) V α} (h : a.PassesOn inside rel)
    (himp : ∀ f x, rel f x → rel' f x) : a.PassesOn inside rel' := by
  induction a with
  | done x => trivial
  | call p input next ih =>
    exact ⟨fun f hf => (h.1 f hf).mono (himp f), fun o => ih o (h.2 o) himp⟩
  | guarded name input region next ihRegion ih =>
    exact ⟨ihRegion h.1 fun f o hend => hend.mono (himp f),
      fun f hf => (h.2.1 f hf).mono (himp f), fun o => ih o (h.2.2 o) himp⟩
  | client code next ihCode ih =>
    exact ⟨fun hinside => ihCode (h.1 hinside) fun f r hend => hend.mono (himp f),
      fun f hf => (h.2.1 f hf).mono (himp f), fun r => ih r (h.2.2 r) himp⟩
  | askMode next ih => exact fun mode => ih mode (h mode) himp
  | logFailure _ _ next ih | report _ next ih | clearPartials next ih | keepPartials _ next ih
  | checkReproduction _ _ _ next ih | configure _ next ih => exact ih h himp

end Action

-- ---------------------------------------------------------------------------
-- The combinators
-- ---------------------------------------------------------------------------

namespace Parser

def hidesFailures : Parser V → Bool
  | .recover .. | .notFollowedBy _ | .labelled .. => true
  | _ => false

def Places (p : Parser V) (input : List (Token V)) (f g : Failure) : Prop :=
  g = f ∨ (∃ label parts, p = .seq label parts) ∧ g = f.orAt (endPos input)

theorem Places.fatal {p : Parser V} (h : p.Places input f g) (hf : f.Fatal) : g.Fatal := by
  rcases h with rfl | ⟨-, rfl⟩
  · exact hf
  · exact hf.orAt _

theorem seqFrom_passesOn (input : List (Token V)) (parts : List (Parser V)) (sofar : Match V) :
    (seqFrom input parts sofar).PassesOn inside
      fun f o => o = .error f ∨ o = .error (f.orAt (endPos input)) := by
  induction parts generalizing sofar with
  | nil => trivial
  | cons part parts ih =>
    refine ⟨fun f _ => ?_, fun o => ?_⟩
    · simp only [Action.GivesUp, Action.failWith]
      split
      · exact .inr rfl
      · exact .inl rfl
    · cases o with
      | ok m => exact ih _
      | error failure => trivial

theorem longestFrom_passesOn (input : List (Token V)) (options : List (Parser V))
    (best : Option (Match V)) (failures : List Failure) :
    (longestFrom input options best failures).PassesOn inside fun f o => o = .error f := by
  induction options generalizing best failures with
  | nil => cases best <;> trivial
  | cons option options ih =>
    refine ⟨fun f hf => ?_, fun o => ?_⟩
    · simp only [hf.not_isRecoverable, Bool.false_eq_true, ↓reduceIte]
      exact rfl
    · cases o with
      | ok m => exact ih _ _
      | error failure =>
        simp only
        split
        · exact ih _ _
        · trivial

theorem firstFrom_passesOn (input : List (Token V)) (options : List (Parser V))
    (failures : List Failure) :
    (firstFrom input options failures).PassesOn inside fun f o => o = .error f := by
  induction options generalizing failures with
  | nil => trivial
  | cons option options ih =>
    refine ⟨fun f hf => ?_, fun o => ?_⟩
    · simp only [hf.not_isRecoverable, Bool.false_eq_true, ↓reduceIte]
      exact rfl
    · cases o with
      | ok m => trivial
      | error failure =>
        simp only
        split
        · exact ih _
        · trivial

theorem comparedFrom_passesOn (location : String) (input : List (Token V))
    (options : List (Parser V)) (number : Nat) (comparison : Option (Comparison V))
    (failures : List Failure) :
    (comparedFrom location input options number comparison failures).PassesOn inside
      fun f o => o = .error f := by
  induction options generalizing number comparison failures with
  | nil =>
    cases comparison with
    | none => trivial
    | some c =>
      rw [comparedFrom]
      split <;> trivial
  | cons option options ih =>
    refine ⟨fun f hf => ?_, fun o => ?_⟩
    · simp only [hf.not_isRecoverable, Bool.false_eq_true, ↓reduceIte]
      exact rfl
    · cases o with
      | ok m => exact ih _ _ _
      | error failure =>
        simp only
        split
        · exact ih _ _ _
        · trivial

theorem choose_passesOn (location : String) (options : List (Parser V)) (input : List (Token V))
    (mode : ChoiceMode) :
    (choose location options input mode).PassesOn inside fun f o => o = .error f := by
  cases mode with
  | safe => exact longestFrom_passesOn ..
  | fast => exact firstFrom_passesOn ..
  | tryFast => exact comparedFrom_passesOn ..

theorem endRepetition_passesOn (label : String) (min : Nat) (input : List (Token V))
    (count : Nat) (sofar : Match V) :
    (endRepetition label min input count sofar).PassesOn inside rel := by
  unfold endRepetition
  split <;> trivial

theorem repeatFrom_passesOn (label : String) (min : Nat) (max : Option Nat) (item : Parser V)
    (input : List (Token V)) (budget count : Nat) (sofar : Match V) :
    (repeatFrom label min max item input budget count sofar).PassesOn inside
      fun f o => o = .error f := by
  induction budget generalizing count sofar with
  | zero => exact endRepetition_passesOn ..
  | succ budget ih =>
    rw [repeatFrom]
    split
    · exact endRepetition_passesOn ..
    · refine ⟨fun f hf => ?_, fun o => ?_⟩
      · simp only [hf.not_is (k := .notMatch) rfl, Bool.false_eq_true, ↓reduceIte]
        exact rfl
      · cases o with
        | ok m =>
          simp only
          split
          · exact endRepetition_passesOn ..
          · exact ih _ _
        | error failure =>
          simp only
          split
          · exact endRepetition_passesOn ..
          · trivial

theorem traced_passesOn {region : Step V} (h : region.PassesOn inside rel)
    (hrel : ∀ f, rel f (.error f)) :
    (Action.traced name input region).PassesOn inside rel :=
  ⟨h, fun f _ => hrel f, fun _ => trivial⟩

theorem call_passesOn (item : Parser V) (input : List (Token V)) :
    (Action.parse item input).PassesOn inside fun f o => o = .error f :=
  ⟨fun _ _ => rfl, fun _ => trivial⟩

/-- Every parser passes fatal failures on, if it does not go on after failures of any
kind. Only a sequence may give one a place. -/
theorem body_passesOn {rules : Rules V} {p : Parser V} (hkeeps : p.hidesFailures = false)
    (hclients : inside = true → p.Clients (·.PassesOn inside fun f r => r = .error f))
    (input : List (Token V)) :
    (p.body rules input).PassesOn inside fun f o => ∃ g, o = .error g ∧ p.Places input f g := by
  -- All but the sequence return the failure as it is.
  have hsame : (p.body rules input).PassesOn inside (fun f o => o = .error f) →
      (p.body rules input).PassesOn inside fun f o => ∃ g, o = .error g ∧ p.Places input f g :=
    fun h => h.mono fun f o ho => ⟨f, ho, .inl rfl⟩
  cases p with
  | leaf program =>
    exact hsame ⟨fun hinside => hclients hinside input, fun _ _ => rfl, fun _ => trivial⟩
  | seq label parts =>
    refine traced_passesOn ((seqFrom_passesOn input parts .nothing).mono fun f o ho => ?_)
      fun f => ⟨f, rfl, .inl rfl⟩
    rcases ho with rfl | rfl
    · exact ⟨f, rfl, .inl rfl⟩
    · exact ⟨_, rfl, .inr ⟨⟨label, parts, rfl⟩, rfl⟩⟩
  | choice location mode options =>
    refine hsame (traced_passesOn ?_ fun _ => rfl)
    cases mode with
    | some mode => exact choose_passesOn ..
    | none => exact choose_passesOn location options input
  | repetition label min max item =>
    exact hsame (traced_passesOn (repeatFrom_passesOn ..) fun _ => rfl)
  | optional item =>
    refine hsame (traced_passesOn ⟨fun f hf => ?_, fun o => ?_⟩ fun _ => rfl)
    · simp only [hf.not_isRecoverable, Bool.false_eq_true, ↓reduceIte]
      exact rfl
    · cases o with
      | ok m => trivial
      | error failure => simp only; split <;> trivial
  | transform location item convert =>
    refine hsame ⟨fun _ _ => rfl, fun o => ?_⟩
    cases o with
    | error failure => trivial
    | ok m =>
      refine ⟨fun hinside => (hclients hinside m.produced).mono ?_, fun _ _ => rfl, fun r => ?_⟩
      · rintro f _ rfl
        exact rfl
      · cases r <;> trivial
  | before test => exact hsame (traced_passesOn trivial fun _ => rfl)
  | empty label =>
    cases label with
    | none => trivial
    | some label => exact hsame (traced_passesOn trivial fun _ => rfl)
  | atEnd =>
    refine hsame (traced_passesOn ?_ fun _ => rfl)
    cases input <;> trivial
  | lookahead item | peek item =>
    refine hsame (traced_passesOn ⟨fun _ _ => rfl, fun o => ?_⟩ fun _ => rfl)
    cases o <;> trivial
  | expected message | fail message => trivial
  | trace label item => exact hsame (traced_passesOn (call_passesOn item input) fun _ => rfl)
  | ref name rule | deferred rule =>
    refine hsame (traced_passesOn ?_ fun _ => rfl)
    cases rules rule with
    | none => trivial
    | some body => exact call_passesOn body input
  | recover search body skipUntil => contradiction
  | notFollowedBy item => contradiction
  | labelled label item => contradiction

end Parser

end TokenGrammar
