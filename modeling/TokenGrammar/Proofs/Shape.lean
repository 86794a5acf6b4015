import TokenGrammar.Proofs.Parallel

/-!
# Parsers of one shape

Two parsers have the same shape where they are built by one combinator, of parts that
correspond. Then they take the same steps (`Parser.SameShape.body`), and where all parsers
of two grammars that correspond do so, their parses end alike
(`Parser.endsAlike_of_parallel`).
-/

namespace TokenGrammar

variable {V : Type} {L : Likeness}

/-- Whether two parsers are built by one combinator, up to what `L` leaves open, where `R`
relates their parts and what their authors' code calls. -/
inductive Parser.SameShape (L : Likeness) (R : Parser V → Parser V → Prop) :
    Parser V → Parser V → Prop
  | leaf (h : ∀ input, (program input).Parallel L R (program' input)) :
    SameShape L R (.leaf program) (.leaf program')
  | seq {parts parts' : List (Parser V)} (h : List.Forall₂ R parts parts') :
    SameShape L R (.seq label parts) (.seq label parts')
  | choice (hplace : L.places location location') (h : List.Forall₂ R options options') :
    SameShape L R (.choice location mode options) (.choice location' mode options')
  | repetition {min : Nat} {max : Option Nat} (h : R item item') :
    SameShape L R (.repetition label min max item) (.repetition label min max item')
  | optional (h : R item item') : SameShape L R (.optional item) (.optional item')
  | transform (h : R item item')
      (hconvert : ∀ tokens, (convert tokens).Parallel L R (convert' tokens)) :
    SameShape L R (.transform location item convert) (.transform location item' convert')
  | before : SameShape L R (.before test) (.before test)
  | empty : SameShape L R (.empty label) (.empty label)
  | atEnd : SameShape L R .atEnd .atEnd
  | recover {body : Parser V} (hsearch : R search search') (hbody : R body body')
      (hskip : R skip skip') :
    SameShape L R (.recover search body skip) (.recover search' body' skip')
  | lookahead (h : R item item') : SameShape L R (.lookahead item) (.lookahead item')
  | notFollowedBy (h : R item item') :
    SameShape L R (.notFollowedBy item) (.notFollowedBy item')
  | peek (h : R item item') : SameShape L R (.peek item) (.peek item')
  | labelled (h : R item item') : SameShape L R (.labelled label item) (.labelled label item')
  | expected : SameShape L R (.expected message) (.expected message)
  | fail : SameShape L R (.fail message) (.fail message)
  | trace (h : R item item') : SameShape L R (.trace label item) (.trace label item')
  | ref : SameShape L R (.ref name rule) (.ref name rule)
  | deferred : SameShape L R (.deferred rule) (.deferred rule)

namespace Parser

variable {R : Parser V → Parser V → Prop}

-- ---------------------------------------------------------------------------
-- The loops of the combinators
-- ---------------------------------------------------------------------------

open TokenGrammar.Action (Parallel)

theorem traced_parallel {region region' : Step V} (hname : L.names name name')
    (h : region.Parallel L R region') :
    (Action.traced name input region).Parallel L R (Action.traced name' input region') :=
  .guarded hname h fun _ => .done

theorem seqFrom_parallel {parts parts' : List (Parser V)} (h : List.Forall₂ R parts parts')
    (input : List (Token V)) (sofar : Match V) :
    (seqFrom input parts sofar).Parallel L R (seqFrom input parts' sofar) := by
  induction h generalizing sofar with
  | nil => exact .done
  | cons hpart _ ih =>
    refine .clearPartials (.call hpart fun o => ?_)
    cases o with
    | ok m => exact ih _
    | error failure => exact .keepPartials .done

theorem longestFrom_parallel {options options' : List (Parser V)}
    (h : List.Forall₂ R options options') (input : List (Token V)) (best : Option (Match V))
    (failures : List Failure) :
    (longestFrom input options best failures).Parallel L R
      (longestFrom input options' best failures) := by
  induction h generalizing best failures with
  | nil => cases best <;> exact .done
  | cons hoption _ ih =>
    refine .call hoption fun o => ?_
    cases o with
    | ok m => exact ih _ _
    | error failure =>
      simp only
      split
      · exact ih _ _
      · exact .done

theorem firstFrom_parallel {options options' : List (Parser V)}
    (h : List.Forall₂ R options options') (input : List (Token V)) (failures : List Failure) :
    (firstFrom input options failures).Parallel L R (firstFrom input options' failures) := by
  induction h generalizing failures with
  | nil => exact .done
  | cons hoption _ ih =>
    refine .call hoption fun o => ?_
    cases o with
    | ok m => exact .done
    | error failure =>
      simp only
      split
      · exact ih _
      · exact .done

section
variable (hplace : L.places location location')
include hplace

theorem comparedFrom_parallel {options options' : List (Parser V)}
    (h : List.Forall₂ R options options') (input : List (Token V)) (number : Nat)
    (comparison : Option (Comparison V)) (failures : List Failure) :
    (comparedFrom location input options number comparison failures).Parallel L R
      (comparedFrom location' input options' number comparison failures) := by
  induction h generalizing number comparison failures with
  | nil =>
    cases comparison with
    | none => exact .done
    | some c =>
      simp only [comparedFrom, Comparison.finding?]
      by_cases hsame : c.longest.number = c.first.number
      · simp only [if_pos hsame]
        exact .done
      · simp only [if_neg hsame]
        exact .report (.reorder hplace) .done
  | cons hoption _ ih =>
    refine .call hoption fun o => ?_
    cases o with
    | ok m => exact ih _ _ _
    | error failure =>
      simp only
      split
      · exact ih _ _ _
      · exact .done

theorem choose_parallel {options options' : List (Parser V)}
    (h : List.Forall₂ R options options') (input : List (Token V)) (mode : ChoiceMode) :
    (choose location options input mode).Parallel L R
      (choose location' options' input mode) := by
  cases mode with
  | safe => exact longestFrom_parallel h input none []
  | fast => exact firstFrom_parallel h input []
  | tryFast => exact comparedFrom_parallel hplace h input 1 none []

end

theorem endRepetition_parallel (label : String) (min : Nat) (input : List (Token V)) (count : Nat)
    (sofar : Match V) : (endRepetition label min input count sofar).Parallel L R
      (endRepetition label min input count sofar) := by
  unfold endRepetition
  split <;> exact .done

theorem repeatFrom_parallel {item item' : Parser V} (h : R item item') (label : String)
    (min : Nat) (max : Option Nat) (input : List (Token V)) (budget count : Nat)
    (sofar : Match V) :
    (repeatFrom label min max item input budget count sofar).Parallel L R
      (repeatFrom label min max item' input budget count sofar) := by
  induction budget generalizing count sofar with
  | zero => exact endRepetition_parallel ..
  | succ budget ih =>
    simp only [repeatFrom]
    split
    · exact endRepetition_parallel ..
    · refine .call h fun o => ?_
      cases o with
      | ok m =>
        simp only
        split
        · exact endRepetition_parallel ..
        · exact ih _ _
      | error failure =>
        simp only
        split
        · exact endRepetition_parallel ..
        · exact .done

theorem resync_parallel {skip skip' : Parser V} (h : R skip skip') (input : List (Token V))
    (i : Nat) : (resync skip input i).Parallel L R (resync skip' input i) := by
  induction input generalizing i with
  | nil => exact .done
  | cons token rest ih =>
    refine .call h fun o => ?_
    cases o with
    | ok m => exact .done
    | error failure => exact ih _

theorem onMatch_parallel {next next' : Match V → Step V}
    (h : ∀ m, (next m).Parallel L R (next' m)) (o : Outcome V) :
    (onMatch o next).Parallel L R (onMatch o next') := by
  cases o with
  | ok m => exact h m
  | error failure => exact .done

-- ---------------------------------------------------------------------------
-- Every parser
-- ---------------------------------------------------------------------------

/-- Parsers of one shape take the same steps. Where they ask for the mode of choice, it
must be the same for both. -/
theorem SameShape.body {rules rules' : Rules V} {p p' : Parser V} (h : p.SameShape L R p')
    (hrules : ∀ rule, Option.Rel R (rules rule) (rules' rule))
    (hmode : p.asksMode = true → ∀ c c', L.options c c' → c.choiceMode = c'.choiceMode)
    (input : List (Token V)) : (p.body rules input).Parallel L R (p'.body rules' input) := by
  have hname : ∀ name, L.names name name := L.names_refl
  cases h with
  | leaf h => exact .client (h input) fun _ => .done
  | seq h => exact traced_parallel (hname _) (seqFrom_parallel h ..)
  | @choice location location' options options' mode hplace h =>
    refine traced_parallel (hname _) ?_
    cases mode with
    | some mode => exact choose_parallel hplace h ..
    | none =>
      refine .askMode fun c c' hc => ?_
      rw [hmode rfl c c' hc]
      exact choose_parallel hplace h ..
  | repetition h => exact traced_parallel (hname _) (repeatFrom_parallel h ..)
  | optional h =>
    refine traced_parallel (hname _) (.call h fun o => ?_)
    cases o with
    | ok m => exact .done
    | error failure => simp only; split <;> exact .done
  | transform h hconvert =>
    refine .call h fun o => onMatch_parallel (fun m => .client (hconvert _) fun r => ?_) o
    cases r with
    | ok converted => exact .checkReproduction h .done
    | error failure => exact .done
  | before => exact traced_parallel (hname _) .done
  | @empty label =>
    cases label with
    | none => exact .done
    | some label => exact traced_parallel (hname _) .done
  | atEnd =>
    refine traced_parallel (hname _) ?_
    cases input <;> exact .done
  | recover hsearch hbody hskip =>
    refine traced_parallel (hname _) (.guarded (hname _) (.call hsearch fun _ => .done) ?_)
    refine onMatch_parallel fun _ => .guarded (hname _) (.call hbody fun _ => .done) fun o => ?_
    cases o with
    | ok m => exact .done
    | error failure =>
      exact .logFailure (traced_parallel (hname _) (resync_parallel hskip ..))
  | lookahead h =>
    exact traced_parallel (hname _) (.call h (onMatch_parallel fun _ => .done))
  | notFollowedBy h =>
    refine traced_parallel (hname _) (.call h fun o => ?_)
    cases o <;> exact .done
  | peek h => exact traced_parallel (hname _) (.call h (onMatch_parallel fun _ => .done))
  | labelled h =>
    refine .call h fun o => ?_
    cases o <;> exact .done
  | expected => exact .done
  | fail => exact .done
  | trace h => exact traced_parallel (hname _) (.call h fun _ => .done)
  | @ref name rule | @deferred rule =>
    refine traced_parallel (hname _) ?_
    have hrule := hrules rule
    generalize rules rule = body, rules' rule = body' at hrule ⊢
    cases hrule with
    | some hbody => exact .call hbody fun _ => .done
    | none => exact .done

-- ---------------------------------------------------------------------------
-- Parses
-- ---------------------------------------------------------------------------

variable [TokenValue V] {rules rules' : Rules V}

def EndsAlike (alike : Context V → Context V → Prop) (rules : Rules V) (p : Parser V)
    (ctx : Context V) (rules' : Rules V) (p' : Parser V) (ctx' : Context V)
    (input : List (Token V)) : Prop :=
  ((∃ n, (run rules n p input ctx).isSome) ↔ ∃ n, (run rules' n p' input ctx').isSome) ∧
  ∀ m n o o' ctx₁ ctx₁', run rules m p input ctx = some (o, ctx₁) →
    run rules' n p' input ctx' = some (o', ctx₁') → o = o' ∧ alike ctx₁ ctx₁'

def Follows (alike : Context V → Context V → Prop) (rules : Rules V) (p : Parser V)
    (ctx : Context V) (rules' : Rules V) (p' : Parser V) (ctx' : Context V)
    (input : List (Token V)) : Prop :=
  ∀ n o ctx₁, run rules n p input ctx = some (o, ctx₁) →
    ∃ m ctx₁', run rules' m p' input ctx' = some (o, ctx₁') ∧ alike ctx₁ ctx₁'

theorem EndsAlike.mono {p p' : Parser V} {ctx ctx' : Context V}
    (h : EndsAlike alike rules p ctx rules' p' ctx' input)
    (himp : ∀ c c', alike c c' → alike' c c') : EndsAlike alike' rules p ctx rules' p' ctx' input :=
  ⟨h.1, fun m n o o' c c' hrun hrun' => (h.2 m n o o' c c' hrun hrun').imp_right (himp c c')⟩

theorem EndsAlike.of_follows {p p' : Parser V} {ctx ctx' : Context V}
    (h : Follows alike rules p ctx rules' p' ctx' input)
    (h' : Follows alike' rules' p' ctx' rules p ctx input) :
    EndsAlike alike rules p ctx rules' p' ctx' input := by
  refine ⟨⟨?_, ?_⟩, ?_⟩
  · rintro ⟨n, hn⟩
    obtain ⟨⟨o, ctx₁⟩, hrun⟩ := Option.isSome_iff_exists.1 hn
    obtain ⟨m, ctx₁', hrun', -⟩ := h n o ctx₁ hrun
    exact ⟨m, Option.isSome_of_eq_some hrun'⟩
  · rintro ⟨n, hn⟩
    obtain ⟨⟨o, ctx₁'⟩, hrun'⟩ := Option.isSome_iff_exists.1 hn
    obtain ⟨m, ctx₁, hrun, -⟩ := h' n o ctx₁' hrun'
    exact ⟨m, Option.isSome_of_eq_some hrun⟩
  · intro m n o o' ctx₁ ctx₁' hrun hrun'
    obtain ⟨k, ctx₂, hsame, halike⟩ := h m o ctx₁ hrun
    obtain ⟨rfl, rfl⟩ := Prod.mk.inj (run_unique hsame hrun')
    exact ⟨rfl, halike⟩

theorem Follows.of_runs {p p' : Parser V} {ctx ctx' : Context V}
    (h : ∀ n o ctx₁, run rules n p input ctx = some (o, ctx₁) →
      ∃ ctx₁' es, Runs rules' (p'.body rules' input) ctx' o ctx₁' es ∧ alike ctx₁ ctx₁') :
    Follows alike rules p ctx rules' p' ctx' input := by
  intro n o ctx₁ hrun
  obtain ⟨ctx₁', es, hrun', halike⟩ := h n o ctx₁ hrun
  obtain ⟨m, hm⟩ := parses_iff_run.1 ⟨_, es, hrun', rfl⟩
  exact ⟨m, ctx₁', hm, halike⟩

/-- Parses follow each other if a run of one more nested call does so wherever the runs it
calls do. -/
theorem follows_of_step
    (hstep : ∀ n, Action.Callee.FollowedBy (run rules n) L R rules' →
      Action.Callee.FollowedBy (run rules (n + 1)) L R rules')
    {p p' : Parser V} (hp : R p p') {ctx ctx' : Context V} (hctx : ctx.Resembles L ctx')
    (input : List (Token V)) :
    Follows (Context.Resembles L) rules p ctx rules' p' ctx' input := by
  have hruns : ∀ n, Action.Callee.FollowedBy (run rules n) L R rules' := by
    intro n
    induction n with
    | zero => intro _ _ _ _ _ _ _ _ _ hrun; contradiction
    | succ n ih => exact hstep n ih
  exact .of_runs fun n o ctx₁ hrun => hruns n hp hctx hrun

/-- Where the parsers of two grammars that correspond take the same steps, parses by them
follow each other. -/
theorem follows_of_parallel
    (hsteps : ∀ p p', R p p' → ∀ input,
      (p.body rules input).Parallel L R (p'.body rules' input))
    {p p' : Parser V} (hp : R p p') {ctx ctx' : Context V} (hctx : ctx.Resembles L ctx')
    (input : List (Token V)) :
    Follows (Context.Resembles L) rules p ctx rules' p' ctx' input :=
  follows_of_step (fun _ ih p p' input _ _ _ _ hp hctx hrun =>
    (hsteps p p' hp input).runs ih hctx hrun) hp hctx input

theorem endsAlike_of_parallel
    (hsteps : ∀ p p', R p p' → ∀ input,
      (p.body rules input).Parallel L R (p'.body rules' input))
    {p p' : Parser V} (hp : R p p') {ctx ctx' : Context V} (hctx : ctx.Resembles L ctx')
    (input : List (Token V)) :
    EndsAlike (Context.Resembles L) rules p ctx rules' p' ctx' input :=
  .of_follows (follows_of_parallel hsteps hp hctx input)
    (follows_of_parallel (R := fun p' p => R p p')
      (fun p' p hp input => (hsteps p p' hp input).flip) hp hctx.flip input)

end Parser

end TokenGrammar
