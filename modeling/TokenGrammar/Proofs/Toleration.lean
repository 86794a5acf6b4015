import TokenGrammar.Leaf
import TokenGrammar.Proofs.Trials

/-!
# Choices that are tolerated

A choice joins what its options fail with, and a join is recoverable as one of its members
is. So where no option fails unrecoverably the choice does not either: an optional part is
left out with it, and a choice around it goes on (`Parser.choice_tolerated`). It needs an
option for that. The join of no failures is not recoverable, although its kind is.
-/

namespace TokenGrammar.Parser

variable {V : Type} {mode : ChoiceMode} {input : List (Token V)}

theorem goesOn_conclude (mode : ChoiceMode) (place : Option Position)
    {outcomes : List (Outcome V)} (hne : outcomes ≠ []) (hgo : ∀ o ∈ outcomes, o.GoesOn) :
    (conclude mode place outcomes).GoesOn := by
  cases hfound : outcomes.find? mode.endsOn with
  | some o =>
    rw [conclude, hfound]
    exact hgo o (List.mem_of_find?_eq_some hfound)
  | none =>
    intro failure hfailure
    have hends := endsOn_conclude mode place hne
    rw [hfailure, ← List.isSome_find?, hfound] at hends
    exact endsOn_of_error hends

theorem endsOn_of_goesOn {o : Outcome V} (hgo : o.GoesOn)
    (hfast : mode = .fast → o.isMatch = false) : mode.endsOn o = false := by
  cases o with
  | ok m => exact decide_eq_false fun h => absurd (hfast h) (by simp [Outcome.isMatch])
  | error failure => simp [ChoiceMode.endsOn, hgo failure rfl]

variable [TokenValue V] {rules : Rules V} {ctx : Context V}

theorem optional_of_goesOn {p : Parser V} {start : Context V}
    (gate : start.enter? "optional" (firstPos input) = .ok ctx)
    (hparse : (p.body rules input).Leads rules ctx o ctx') (hgo : o.GoesOn) :
    ∃ n m left, run rules n (.optional p) input start = some (.ok m, left) := by
  have hleads : ∃ m, ((Parser.optional p).body rules input).Leads rules start (.ok m)
      (ctx'.leave "optional" (firstPos input) ctx.traces.size (.ok m)) := by
    simp only [body, Action.leads_traced_iff gate, Action.leads_call_iff]
    cases o with
    | ok m => exact ⟨m, ctx', ⟨_, _, hparse, Action.leads_done.2 ⟨rfl, rfl⟩⟩, rfl⟩
    | error failure =>
      refine ⟨.nothing, ctx', ⟨_, _, hparse, ?_⟩, rfl⟩
      simp only [hgo failure rfl, if_true]
      exact Action.leads_done.2 ⟨rfl, rfl⟩
  obtain ⟨m, hm⟩ := hleads
  obtain ⟨n, hn⟩ := exists_run_iff.2 hm
  exact ⟨n, m, _, hn⟩

/-- Where no option that is tried fails unrecoverably, a choice that has options succeeds or
fails recoverably: then an optional part is left out, and a choice around it goes on to its
next option, unless it takes the match. A choice without options fails with the empty join. -/
theorem choice_tolerated (location : String) (own : Option ChoiceMode)
    {options : List (Parser V)} (gate : ctx.enter? "or" (firstPos input) = .ok entered)
    (htrial : (trial (own.getD ctx.config.choiceMode) input options).Leads rules entered
      outcomes tried) (hgo : ∀ o ∈ outcomes, o.GoesOn) :
    ∃ n o ctx', run rules n (.choice location own options) input ctx = some (o, ctx') ∧
      (options = [] → o = .error (.joined [] (firstPos input))) ∧
      (options ≠ [] → o.GoesOn ∧
        (∀ start, start.enter? "optional" (firstPos input) = .ok ctx → ∃ n m left,
          run rules n (.optional (.choice location own options)) input start =
            some (.ok m, left)) ∧
        ∀ outer others, (outer = .fast → o.isMatch = false) → ∀ later left,
          ((trial outer input (.choice location own options :: others)).Leads rules ctx
            (o :: later) left ↔ (trial outer input others).Leads rules ctx' later left)) := by
  have hleads : ((choice location own options).body rules input).Leads rules ctx _ _ :=
    (choice_leads_iff gate rfl).2 ⟨outcomes, tried, htrial, rfl, rfl⟩
  obtain ⟨n, hrun⟩ := exists_run_iff.2 hleads
  refine ⟨n, _, _, hrun, ?_, fun hne => ?_⟩
  · rintro rfl
    obtain ⟨rfl, -⟩ := Action.leads_done.1 htrial
    cases own.getD ctx.config.choiceMode <;> rfl
  · have hgoes := goesOn_conclude (own.getD ctx.config.choiceMode) (firstPos input)
      (outcomes_ne_nil hne htrial) hgo
    exact ⟨hgoes, fun start hstart => optional_of_goesOn hstart hleads hgoes,
      fun outer others hfast later left =>
        trial_goes_on hleads (endsOn_of_goesOn hgoes hfast)⟩

end TokenGrammar.Parser

namespace TokenGrammar

def eitherMissing : Parser Int64 := .oneOf "here" [.expected "left", .expected "right"]

/-- Two mismatches are joined, and an optional part is left out with them. -/
theorem eitherMissing_tolerated :
    (Parser.run (fun _ => none) 4 eitherMissing (Token.ofTexts ["a"])
      (.ofConfig ⟨0, false, .safe, false⟩)).map (·.1.isMatch) = some false ∧
    ∃ n m ctx, Parser.run (fun _ => none) n (.optional eitherMissing) (Token.ofTexts ["a"])
      (.ofConfig ⟨0, false, .safe, false⟩) = some (.ok m, ctx) := by
  refine ⟨by decide +kernel, ?_⟩
  let ctx : Context Int64 := { Context.ofConfig ⟨0, false, .safe, false⟩ with depth := 1 }
  have htrial : (Parser.trial .safe (Token.ofTexts ["a"])
      [.expected "left", .expected "right"]).Leads (fun _ => none) { ctx with depth := 2 }
      [.error (.notMatch "left" "found something else" (some (.atIndex 0))),
        .error (.notMatch "right" "found something else" (some (.atIndex 0)))]
      { ctx with depth := 2 } := Action.leads_iff_exec.2 ⟨2, rfl⟩
  have gate : ctx.enter? "or" (firstPos (Token.ofTexts (V := Int64) ["a"])) =
      .ok { ctx with depth := 2 } := rfl
  obtain ⟨_, _, _, -, -, htolerated⟩ := Parser.choice_tolerated "here" none gate htrial
    (by simp [Outcome.GoesOn, Failure.notMatch, Failure.isRecoverable, Failure.is, Fault.kind])
  obtain ⟨-, hoptional, -⟩ := htolerated (List.cons_ne_nil _ _)
  exact hoptional (.ofConfig ⟨0, false, .safe, false⟩) rfl

/-- Without options nothing fails unrecoverably, and yet an optional part fails with the
choice, and a choice around it does not come to the option that matches. The failure is of a
recoverable kind. -/
theorem choice_nil_not_tolerated :
    (∀ mode ∈ ChoiceMode.all,
      (Parser.run (fun _ => none) 4 (.optional (.choice "here" (some mode) []) : Parser Int64)
        (Token.ofTexts ["a"]) (.ofConfig ⟨0, false, .safe, false⟩)).map (Event.failure? ·.1) =
          some (some (.joined [] (some (.atIndex 0)))) ∧
      (Parser.run (fun _ => none) 4
        (.choice "there" (some mode) [.choice "here" (some mode) [], Leaf.take 1 1] : Parser Int64)
        (Token.ofTexts ["a"]) (.ofConfig ⟨0, false, .safe, false⟩)).map (Event.failure? ·.1) =
          some (some (.joined [] (some (.atIndex 0))))) ∧
    (Failure.joined [] (some (.atIndex 0))).isRecoverable = false ∧
    (Failure.joined [] (some (.atIndex 0))).kind.isRecoverable = true := by
  decide +kernel

end TokenGrammar
