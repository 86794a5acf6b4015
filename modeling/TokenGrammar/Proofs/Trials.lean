import TokenGrammar.Proofs.Classification
import TokenGrammar.Proofs.Equivalence
import TokenGrammar.Proofs.ModeSwitch
import TokenGrammar.Proofs.Survey

/-!
# A choice and the outcomes of its options

A choice tries its options in turn, up to an outcome that ends it (`Parser.trial`), and what
it comes to and reports is told by these outcomes alone (`Parser.choose_eq`): it is the
outcome that ended it, or the match that its mode picks, or else the join of the failures.
Each of the three loops over the options is such a trial (`Parser.loop_eq_trial`).
-/

namespace TokenGrammar

variable {V : Type}

-- ---------------------------------------------------------------------------
-- Outcomes that end a choice
-- ---------------------------------------------------------------------------

def Context.reportAny (ctx : Context V) : Option Diagnostic → Context V
  | some finding => ctx.report finding
  | none => ctx

/-- Whether a choice in this mode ends with an outcome and leaves the options after it
untried. -/
def ChoiceMode.endsOn (mode : ChoiceMode) : Outcome V → Bool
  | .ok _ => mode = .fast
  | .error failure => !failure.isRecoverable

namespace Parser

/-- The outcomes of options tried in turn: of all of them, or up to one that ends the
choice. -/
def trial (mode : ChoiceMode) (input : List (Token V)) :
    List (Parser V) → Action (Parser V) V (List (Outcome V))
  | [] => .done []
  | option :: options => .call option input fun o =>
    if mode.endsOn o then .done [o]
    else (trial mode input options).bind fun outcomes => .done (o :: outcomes)

variable {mode : ChoiceMode} {input : List (Token V)}

theorem trial_tryFast (options : List (Parser V)) :
    trial .tryFast input options = trial .safe input options := by
  induction options with
  | nil => rfl
  | cons option options ih => simp only [trial, ih]; rfl

theorem trial_cons (option : Parser V) (options : List (Parser V)) :
    trial mode input (option :: options) = (Action.parse option input).bind fun o =>
      if mode.endsOn o then .done [o]
      else (trial mode input options).bind fun outcomes => .done (o :: outcomes) := rfl

theorem trial_append (options options' : List (Parser V)) :
    trial mode input (options ++ options') = (trial mode input options).bind fun outcomes =>
      if outcomes.any mode.endsOn then .done outcomes
      else (trial mode input options').bind fun outcomes' => .done (outcomes ++ outcomes') := by
  induction options with
  | nil => exact (Action.bind_done _).symm
  | cons option options ih =>
    simp only [List.cons_append, trial, Action.bind, ih]
    congr 1
    funext o
    cases hends : mode.endsOn o with
    | true => simp [Action.bind, hends]
    | false =>
      simp only [Bool.false_eq_true, if_false, Action.bind_assoc, Action.bind, List.any_cons, hends,
        Bool.false_or]
      congr 1
      funext outcomes
      split
      · rfl
      · simp only [Action.bind_assoc, Action.bind, List.cons_append]

-- ---------------------------------------------------------------------------
-- What a choice comes to
-- ---------------------------------------------------------------------------

def matchesOf (outcomes : List (Outcome V)) : List (Match V) := outcomes.filterMap Except.toOption

def failuresOf (outcomes : List (Outcome V)) : List Failure := outcomes.filterMap Event.failure?

def longestOf? (best : Option (Match V)) (ms : List (Match V)) : Option (Match V) :=
  ms.foldl (fun best m => some (longer best m)) best

def pick : ChoiceMode → List (Match V) → Option (Match V)
  | .safe, ms => longestOf? none ms
  | .fast, ms | .tryFast, ms => ms.head?

def conclude (mode : ChoiceMode) (place : Option Position) (outcomes : List (Outcome V)) :
    Outcome V :=
  (outcomes.find? mode.endsOn).getD <|
    matchOrJoin place (failuresOf outcomes) (pick mode (matchesOf outcomes))

theorem conclude_of_find? {outcomes : List (Outcome V)}
    (h : outcomes.find? mode.endsOn = none) (place : Option Position) :
    conclude mode place outcomes =
      matchOrJoin place (failuresOf outcomes) (pick mode (matchesOf outcomes)) := by
  rw [conclude, h, Option.getD_none]

def comparison? (outcomes : List (Outcome V)) : Option (Comparison V) :=
  (outcomes.foldl comparisonStep (1, none, [])).2.1

def finding? (mode : ChoiceMode) (location : String) (place : Option Position)
    (outcomes : List (Outcome V)) : Option Diagnostic :=
  if mode = .tryFast ∧ outcomes.find? mode.endsOn = none then
    (comparison? outcomes).bind (·.finding? location place)
  else none

section
variable (outcomes : List (Outcome V))

@[simp] theorem matchesOf_ok (m : Match V) :
    matchesOf (.ok m :: outcomes) = m :: matchesOf outcomes := rfl

@[simp] theorem matchesOf_error (failure : Failure) :
    matchesOf (.error failure :: outcomes) = matchesOf outcomes := rfl

@[simp] theorem failuresOf_ok (m : Match V) :
    failuresOf (.ok m :: outcomes) = failuresOf outcomes := rfl

@[simp] theorem failuresOf_error (failure : Failure) :
    failuresOf (.error failure :: outcomes) = failure :: failuresOf outcomes := rfl

theorem foldl_longestStep (best : Option (Match V)) (failures : List Failure) :
    outcomes.foldl longestStep (best, failures) =
      (longestOf? best (matchesOf outcomes), failures ++ failuresOf outcomes) := by
  induction outcomes generalizing best failures with
  | nil => simp [matchesOf, failuresOf, longestOf?]
  | cons o outcomes ih =>
    cases o with
    | ok m => simp [longestStep, ih, longestOf?]
    | error failure => simp [longestStep, ih]

theorem foldl_comparisonStep (number : Nat) (comparison : Option (Comparison V))
    (failures : List Failure) :
    let kept := outcomes.foldl comparisonStep (number, comparison, failures)
    kept.1 = number + outcomes.length ∧
      kept.2.1.map (·.first.matched) =
        (comparison.map (·.first.matched)).or (matchesOf outcomes).head? ∧
      kept.2.1.map (·.longest.matched) =
        longestOf? (comparison.map (·.longest.matched)) (matchesOf outcomes) ∧
      kept.2.2 = failures ++ failuresOf outcomes := by
  induction outcomes generalizing number comparison failures with
  | nil => simp [matchesOf, failuresOf, longestOf?]
  | cons o outcomes ih =>
    have hnumber : number + 1 + outcomes.length = number + (outcomes.length + 1) := by omega
    cases o with
    | error failure => simp [comparisonStep, ih, hnumber]
    | ok m =>
      cases comparison with
      | none => simp [comparisonStep, ih, hnumber, Comparison.extend, longestOf?, longer]
      | some c =>
        simp [comparisonStep, ih, hnumber, Comparison.extend_first, Comparison.extend_longest,
          longestOf?]

end

theorem matchesOf_eq_nil {outcomes : List (Outcome V)}
    (h : outcomes.find? ChoiceMode.fast.endsOn = none) : matchesOf outcomes = [] := by
  refine List.filterMap_eq_nil_iff.2 fun o ho => ?_
  have hgo := List.find?_eq_none.1 h o ho
  cases o with
  | ok m => simp [ChoiceMode.endsOn] at hgo
  | error failure => rfl

def endChoice (mode : ChoiceMode) (location : String) (place : Option Position)
    (outcomes : List (Outcome V)) : Step V :=
  match finding? mode location place outcomes with
  | some finding => .report finding (.done (conclude mode place outcomes))
  | none => .done (conclude mode place outcomes)

theorem endChoice_of_find? {outcomes : List (Outcome V)}
    (h : outcomes.find? mode.endsOn = some o) (location : String) (place : Option Position) :
    endChoice mode location place outcomes = .done o := by
  simp [endChoice, finding?, conclude, h]

-- ---------------------------------------------------------------------------
-- The loops over the options
-- ---------------------------------------------------------------------------

/-- A loop over options that goes on after an outcome with what `step` keeps of it, unless
the outcome ends the choice, is a trial of the options. -/
theorem loop_eq_trial (loop : List (Parser V) → σ → Step V) (step : σ → Outcome V → σ) (s : σ)
    (hnext : ∀ option options s, loop (option :: options) s = .call option input fun o =>
      if mode.endsOn o then .done o else loop options (step s o))
    (hlast : ∀ outcomes, outcomes.find? mode.endsOn = none →
      loop [] (outcomes.foldl step s) = endChoice mode location place outcomes)
    (options : List (Parser V)) :
    loop options s = (trial mode input options).bind (endChoice mode location place) := by
  -- What the loop keeps of the outcomes before is generalised.
  have hends : ∀ s, loop options s = (trial mode input options).bind fun outcomes =>
      match outcomes.find? mode.endsOn with
      | some o => .done o
      | none => loop [] (outcomes.foldl step s) := by
    induction options with
    | nil => exact fun _ => rfl
    | cons option options ih =>
      intro s
      rw [hnext]
      simp only [trial, Action.bind]
      congr 1
      funext o
      cases hends : mode.endsOn o with
      | true => simp [Action.bind, hends]
      | false => simp [ih, Action.bind_assoc, Action.bind, hends]
  rw [hends s]
  congr 1
  funext outcomes
  cases hfound : outcomes.find? mode.endsOn with
  | some o => exact (endChoice_of_find? hfound ..).symm
  | none => exact hlast outcomes hfound

section
variable (location : String) (options : List (Parser V)) (input : List (Token V))

theorem longestFrom_eq_trial : longestFrom input options none [] =
    (trial .safe input options).bind (endChoice .safe location (firstPos input)) := by
  refine loop_eq_trial (fun options s => longestFrom input options s.1 s.2) longestStep
    (none, []) ?_ ?_ options
  · intro option options s
    simp only [longestFrom]
    congr 1
    funext o
    cases o with
    | ok m => rfl
    | error failure =>
      cases hrec : failure.isRecoverable <;>
        simp [ChoiceMode.endsOn, hrec, longestStep, Action.failWith]
  · intro outcomes hnone
    simp only [foldl_longestStep, endChoice, finding?, conclude, hnone, pick]
    cases longestOf? none (matchesOf outcomes) <;> rfl

theorem firstFrom_eq_trial : firstFrom input options [] =
    (trial .fast input options).bind (endChoice .fast location (firstPos input)) := by
  -- What the step keeps of matches is left out: a match ends the choice.
  refine loop_eq_trial (fun options s => firstFrom input options s.2) longestStep (none, [])
    ?_ ?_ options
  · intro option options s
    simp only [firstFrom]
    congr 1
    funext o
    cases o with
    | ok m => rfl
    | error failure =>
      cases hrec : failure.isRecoverable <;>
        simp [ChoiceMode.endsOn, hrec, longestStep, Action.failWith]
  · intro outcomes hnone
    simp [foldl_longestStep, firstFrom, endChoice, finding?, conclude, hnone, pick,
      matchesOf_eq_nil hnone, matchOrJoin, Action.failWith]

theorem comparedFrom_eq_trial : comparedFrom location input options 1 none [] =
    (trial .tryFast input options).bind (endChoice .tryFast location (firstPos input)) := by
  refine loop_eq_trial (fun options s => comparedFrom location input options s.1 s.2.1 s.2.2)
    comparisonStep (1, none, []) ?_ ?_ options
  · intro option options s
    simp only [comparedFrom]
    congr 1
    funext o
    cases o with
    | ok m => rfl
    | error failure =>
      cases hrec : failure.isRecoverable <;>
        simp [ChoiceMode.endsOn, hrec, comparisonStep, Action.failWith]
  · intro outcomes hnone
    obtain ⟨-, hfirst, -, hfailures⟩ := foldl_comparisonStep outcomes 1 none []
    simp only [endChoice, finding?, conclude, hnone, pick, comparison?, hfailures, List.nil_append]
    cases hcomparison : (outcomes.foldl comparisonStep (1, none, [])).2.1 with
    | none =>
      rw [hcomparison] at hfirst
      have hmatches : (matchesOf outcomes).head? = none := by simpa using hfirst.symm
      simp [comparedFrom, hmatches, matchOrJoin, Action.failWith]
    | some c =>
      rw [hcomparison] at hfirst
      have htaken : (matchesOf outcomes).head? = some c.first.matched := by simpa using hfirst.symm
      simp only [comparedFrom, htaken, matchOrJoin, Option.bind_some]
      cases hfinding : c.finding? location (firstPos input) <;> rfl

theorem choose_eq (mode : ChoiceMode) : choose location options input mode =
    (trial mode input options).bind (endChoice mode location (firstPos input)) := by
  cases mode with
  | safe => exact longestFrom_eq_trial location options input
  | fast => exact firstFrom_eq_trial location options input
  | tryFast => exact comparedFrom_eq_trial location options input

end

-- ---------------------------------------------------------------------------
-- Choices that end the choice around them
-- ---------------------------------------------------------------------------

theorem longestOf?_isSome (b : Match V) (ms : List (Match V)) :
    (longestOf? (some b) ms).isSome = true := by
  induction ms generalizing b with
  | nil => rfl
  | cons m ms ih => exact ih _

theorem pick_eq_none {ms : List (Match V)} : pick mode ms = none ↔ ms = [] := by
  cases ms with
  | nil => cases mode <;> simp [pick, longestOf?]
  | cons m ms =>
    have hlongest : longestOf? (some m) ms ≠ none :=
      Option.isSome_iff_ne_none.1 (longestOf?_isSome m ms)
    cases mode with
    | safe => exact iff_of_false hlongest (List.cons_ne_nil m ms)
    | fast | tryFast => simp [pick]

theorem endsOn_of_error {failure : Failure}
    (h : mode.endsOn (.error failure : Outcome V) = false) : failure.isRecoverable = true := by
  simpa [ChoiceMode.endsOn] using h

/-- A choice of which options have been tried ends one around it, in the same mode, just if
one of their outcomes would. -/
theorem endsOn_conclude (mode : ChoiceMode) (place : Option Position)
    {outcomes : List (Outcome V)} (hne : outcomes ≠ []) :
    mode.endsOn (conclude mode place outcomes) = outcomes.any mode.endsOn := by
  rw [← List.isSome_find?]
  cases hfound : outcomes.find? mode.endsOn with
  | some o =>
    have hends : mode.endsOn o = true := List.find?_some hfound
    simp [conclude, hfound, hends]
  | none =>
    have hgo := List.find?_eq_none.1 hfound
    rw [conclude_of_find? hfound]
    cases hpick : pick mode (matchesOf outcomes) with
    | some m =>
      cases mode with
      | fast => simp [matchesOf_eq_nil hfound, pick] at hpick
      | safe | tryFast => rfl
    | none =>
      have hmatches := List.filterMap_eq_nil_iff.1 (pick_eq_none.1 hpick)
      obtain ⟨o, ho⟩ := List.exists_mem_of_ne_nil outcomes hne
      cases o with
      | ok m => exact absurd (hmatches _ ho) (by simp [Except.toOption])
      | error failure =>
        have hrec : failure.isRecoverable = true := endsOn_of_error (by simpa using hgo _ ho)
        have hjoin : (Failure.join (failuresOf outcomes) place).isRecoverable = true :=
          (Failure.isRecoverable_join ..).2
            ⟨failure, List.mem_filterMap.2 ⟨_, ho, rfl⟩, hrec⟩
        simp [matchOrJoin, ChoiceMode.endsOn, hjoin]

-- ---------------------------------------------------------------------------
-- Runs of a choice
-- ---------------------------------------------------------------------------

variable [TokenValue V] {rules : Rules V} {ctx ctx' : Context V}

theorem trial_goes_on {options : List (Parser V)}
    (hparse : (option.body rules input).Leads rules ctx o ctx₁) (hgo : mode.endsOn o = false) :
    (trial mode input (option :: options)).Leads rules ctx (o :: outcomes) ctx' ↔
      (trial mode input options).Leads rules ctx₁ outcomes ctx' := by
  rw [trial, Action.leads_call_iff]
  constructor
  · rintro ⟨o', ctx₂, hparse', hrest⟩
    obtain ⟨rfl, rfl⟩ := hparse'.unique hparse
    simp only [hgo, Bool.false_eq_true, if_false, Action.leads_bind_iff, Action.leads_done] at hrest
    obtain ⟨_, _, hrest, heq, rfl⟩ := hrest
    cases heq
    exact hrest
  · intro hrest
    refine ⟨o, ctx₁, hparse, ?_⟩
    simp only [hgo, Bool.false_eq_true, if_false, Action.leads_bind_iff, Action.leads_done]
    exact ⟨outcomes, ctx', hrest, rfl, rfl⟩

theorem outcomes_ne_nil {options : List (Parser V)} (hoptions : options ≠ [])
    (h : (trial mode input options).Leads rules ctx outcomes ctx') : outcomes ≠ [] := by
  cases options with
  | nil => exact absurd rfl hoptions
  | cons option options =>
    obtain ⟨o, ctx₁, -, hrest⟩ := Action.leads_call_iff.1 h
    split at hrest
    · obtain ⟨rfl, -⟩ := Action.leads_done.1 hrest
      exact List.cons_ne_nil _ _
    · obtain ⟨later, ctx₂, -, hlast⟩ := Action.leads_bind_iff.1 hrest
      obtain ⟨rfl, -⟩ := Action.leads_done.1 hlast
      exact List.cons_ne_nil _ _

theorem leads_endChoice : (endChoice mode location place outcomes).Leads rules ctx o ctx' ↔
    o = conclude mode place outcomes ∧
      ctx' = ctx.reportAny (finding? mode location place outcomes) := by
  unfold endChoice Context.reportAny
  split <;> simp

theorem choice_refused (gate : ctx.enter? "or" (firstPos input) = .error refusal)
    (location : String) (mode' : Option ChoiceMode) (options : List (Parser V)) :
    ((choice location mode' options).body rules input).Leads rules ctx (.error refusal) ctx := by
  cases mode' with
  | some mode => exact ⟨_, .refused gate .done⟩
  | none => exact ⟨_, .refused gate .done⟩

theorem choice_leads_iff {options : List (Parser V)}
    (gate : ctx.enter? "or" (firstPos input) = .ok entered)
    (hmode : mode'.getD ctx.config.choiceMode = mode) :
    ((choice location mode' options).body rules input).Leads rules ctx o ctx' ↔
      ∃ outcomes tried, (trial mode input options).Leads rules entered outcomes tried ∧
        o = conclude mode (firstPos input) outcomes ∧
        ctx' = (tried.reportAny (finding? mode location (firstPos input) outcomes)).leave "or"
          (firstPos input) entered.traces.size o := by
  have hregion : ((choice location mode' options).body rules input).Leads rules ctx o ctx' ↔
      (Action.traced "or" input (choose location options input mode)).Leads rules ctx o ctx' := by
    subst hmode
    cases mode' with
    | some mode' => exact Iff.rfl
    | none =>
      rw [body, Action.leads_traced_iff gate, Action.leads_traced_iff gate]
      simp only [Action.leads_askMode, Context.enter?_config gate, Option.getD_none]
  rw [hregion, Action.leads_traced_iff gate, choose_eq]
  simp only [Action.leads_bind_iff, leads_endChoice]
  constructor
  · rintro ⟨_, ⟨outcomes, tried, htrial, ho, rfl⟩, rfl⟩
    exact ⟨outcomes, tried, htrial, ho, rfl⟩
  · rintro ⟨outcomes, tried, htrial, ho, rfl⟩
    exact ⟨_, ⟨outcomes, tried, htrial, ho, rfl⟩, rfl⟩

theorem choice_ends_iff {options : List (Parser V)}
    (gate : ctx.enter? "or" (firstPos input) = .ok entered)
    (hmode : mode'.getD ctx.config.choiceMode = mode) :
    (∃ n, (run rules n (choice location mode' options) input ctx).isSome) ↔
      ∃ outcomes tried, (trial mode input options).Leads rules entered outcomes tried := by
  simp only [exists_isSome_iff, choice_leads_iff gate hmode]
  constructor
  · rintro ⟨_, _, outcomes, tried, htrial, -, -⟩
    exact ⟨outcomes, tried, htrial⟩
  · rintro ⟨outcomes, tried, htrial⟩
    exact ⟨_, _, outcomes, tried, htrial, rfl, rfl⟩

end Parser

end TokenGrammar
