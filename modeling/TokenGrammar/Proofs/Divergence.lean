import Mathlib.Data.List.Induction
import TokenGrammar.Leaf
import TokenGrammar.Proofs.Trials

/-!
# Where the first match is not the longest

A choice in mode `tryFast` tries the options that one in mode `safe` tries, and fails where
that one fails. Where both match, the one takes the first match and the other the longest,
of equal ones the first, and `tryFast` reports the two just if they are different options
(`Parser.checkedFirstOf_reports`).
-/

namespace TokenGrammar.Parser

variable {V : Type}

-- ---------------------------------------------------------------------------
-- The first match and the longest one
-- ---------------------------------------------------------------------------

section
variable {outcomes : List (Outcome V)} {choice : Choice V}

def Choice.IsFirst (outcomes : List (Outcome V)) (choice : Choice V) : Prop :=
  ∃ earlier later, outcomes = earlier ++ .ok choice.matched :: later ∧
    choice.number = earlier.length + 1 ∧ ∀ m, .ok m ∉ earlier

def Choice.IsLongest (outcomes : List (Outcome V)) (choice : Choice V) : Prop :=
  ∃ earlier later, outcomes = earlier ++ .ok choice.matched :: later ∧
    choice.number = earlier.length + 1 ∧
    (∀ m, .ok m ∈ earlier → m.consumed < choice.matched.consumed) ∧
    ∀ m, .ok m ∈ later → m.consumed ≤ choice.matched.consumed

theorem Choice.IsFirst.concat (h : choice.IsFirst outcomes) (o : Outcome V) :
    choice.IsFirst (outcomes ++ [o]) := by
  obtain ⟨earlier, later, rfl, hnumber, hearlier⟩ := h
  exact ⟨earlier, later ++ [o], by simp, hnumber, hearlier⟩

theorem Choice.IsLongest.concat (h : choice.IsLongest outcomes)
    (ho : ∀ m, o = .ok m → m.consumed ≤ choice.matched.consumed) :
    choice.IsLongest (outcomes ++ [o]) := by
  obtain ⟨earlier, later, rfl, hnumber, hearlier, hlater⟩ := h
  refine ⟨earlier, later ++ [o], by simp, hnumber, hearlier, fun m hm => ?_⟩
  rcases List.mem_append.1 hm with hm | hm
  · exact hlater m hm
  · exact ho m (List.mem_singleton.1 hm).symm

theorem Choice.IsLongest.le (h : choice.IsLongest outcomes) (hm : .ok m ∈ outcomes) :
    m.consumed ≤ choice.matched.consumed := by
  obtain ⟨earlier, later, rfl, -, hearlier, hlater⟩ := h
  rcases List.mem_append.1 hm with hm | hm
  · exact Nat.le_of_lt (hearlier m hm)
  · rcases List.mem_cons.1 hm with heq | hm
    · exact Nat.le_of_eq (congrArg Match.consumed (Except.ok.inj heq))
    · exact hlater m hm

theorem Choice.IsFirst.lt_longest {first longest : Choice V} (hfirst : first.IsFirst outcomes)
    (hlongest : longest.IsLongest outcomes) (hne : longest.number ≠ first.number) :
    first.number < longest.number ∧ first.matched.consumed < longest.matched.consumed := by
  obtain ⟨before, after, rfl, hnumber, hnone⟩ := hfirst
  obtain ⟨earlier, later, heq, hnumber', hlt, -⟩ := hlongest
  -- Either match may stand before the other in the list of outcomes.
  rcases List.append_eq_append_iff.1 heq with ⟨between, rfl, htail⟩ | ⟨between, rfl, htail⟩
  · cases between with
    | nil => exact absurd (by simp [hnumber, hnumber']) hne
    | cons o between =>
      obtain ⟨rfl, -⟩ := List.cons.inj htail
      exact ⟨by simp [hnumber, hnumber'], hlt _ (by simp)⟩
  · cases between with
    | nil => exact absurd (by simp [hnumber, hnumber']) hne
    | cons o between =>
      obtain ⟨rfl, -⟩ := List.cons.inj htail
      exact absurd (by simp) (hnone longest.matched)

end

-- ---------------------------------------------------------------------------
-- Comparisons
-- ---------------------------------------------------------------------------

/-- Whether a comparison is that of the matches among outcomes, of which there are none
without one. -/
def Compares (outcomes : List (Outcome V)) : Option (Comparison V) → Prop
  | none => ∀ m, .ok m ∉ outcomes
  | some c => c.first.IsFirst outcomes ∧ c.longest.IsLongest outcomes

theorem Compares.concat (h : Compares outcomes comparison) (o : Outcome V)
    (failures : List Failure) :
    Compares (outcomes ++ [o])
      (comparisonStep (outcomes.length + 1, comparison, failures) o).2.1 := by
  cases o with
  | error failure =>
    cases comparison with
    | none => exact fun m hm => h m (by simpa using hm)
    | some c => exact ⟨h.1.concat _, h.2.concat fun _ heq => by cases heq⟩
  | ok m =>
    cases comparison with
    | none =>
      exact ⟨⟨outcomes, [], rfl, rfl, h⟩, outcomes, [], rfl, rfl,
        fun m' hm' => absurd hm' (h m'), fun m' hm' => by cases hm'⟩
    | some c =>
      obtain ⟨hfirst, hlongest⟩ := h
      simp only [comparisonStep, Comparison.extend]
      split
      · next hlt =>
        exact ⟨hfirst.concat _, outcomes, [], rfl, rfl,
          fun m' hm' => Nat.lt_of_le_of_lt (hlongest.le hm') hlt, fun m' hm' => by cases hm'⟩
      · next hle =>
        refine ⟨hfirst.concat _, hlongest.concat fun m' heq => ?_⟩
        cases heq
        exact Nat.le_of_not_lt hle

theorem compares_comparison? (outcomes : List (Outcome V)) :
    Compares outcomes (comparison? outcomes) := by
  induction outcomes using List.reverseRecOn with
  | nil => exact fun m hm => by cases hm
  | append_singleton outcomes o ih =>
    obtain ⟨hnumber, -⟩ := foldl_comparisonStep outcomes 1 none []
    have hnext := ih.concat o (outcomes.foldl comparisonStep (1, none, [])).2.2
    rw [Nat.add_comm, ← hnumber] at hnext
    rwa [comparison?, List.foldl_append]

theorem Comparison.finding?_cases (c : Comparison V) (hfirst : c.first.IsFirst outcomes)
    (hlongest : c.longest.IsLongest outcomes) (location : String) (place : Option Position) :
    (c.longest.number = c.first.number ∧ c.finding? location place = none) ∨
      (c.first.number < c.longest.number ∧
        c.first.matched.consumed < c.longest.matched.consumed ∧
        c.finding? location place = some (.reorder location place c.first.number
          c.first.matched.consumed c.longest.number c.longest.matched.consumed)) := by
  by_cases hsame : c.longest.number = c.first.number
  · exact .inl ⟨hsame, if_pos hsame⟩
  · obtain ⟨hnumber, hlt⟩ := hfirst.lt_longest hlongest hsame
    exact .inr ⟨hnumber, hlt, if_neg hsame⟩

/-- What the two modes come to after the same outcomes, and what `tryFast` reports. -/
theorem conclude_cases (location : String) (place : Option Position)
    (outcomes : List (Outcome V)) :
    (∃ failure, conclude .safe place outcomes = .error failure ∧
      conclude .tryFast place outcomes = .error failure ∧
      finding? .tryFast location place outcomes = none) ∨
    ∃ c : Comparison V, c.first.IsFirst outcomes ∧ c.longest.IsLongest outcomes ∧
      conclude .safe place outcomes = .ok c.longest.matched ∧
      conclude .tryFast place outcomes = .ok c.first.matched ∧
      finding? .tryFast location place outcomes = c.finding? location place := by
  have hsame : (ChoiceMode.endsOn .tryFast : Outcome V → Bool) = ChoiceMode.endsOn .safe := rfl
  obtain ⟨-, hfirst, hlongest, -⟩ := foldl_comparisonStep outcomes 1 none []
  have hcompares := compares_comparison? outcomes
  simp only [conclude, finding?, hsame]
  cases hfound : outcomes.find? (ChoiceMode.endsOn .safe) with
  | some o =>
    have hends := List.find?_some hfound
    cases o with
    | ok m => cases hends
    | error failure => exact .inl ⟨failure, rfl, rfl, by simp⟩
  | none =>
    change Option.map _ (comparison? outcomes) = _ at hfirst hlongest
    simp only [Option.map_none, Option.none_or] at hfirst hlongest
    simp only [Option.getD_none, pick, ← hfirst, ← hlongest]
    cases hcomparison : comparison? outcomes with
    | none => exact .inl ⟨_, rfl, rfl, by simp⟩
    | some c =>
      rw [hcomparison] at hcompares
      exact .inr ⟨c, hcompares.1, hcompares.2, rfl, rfl, by simp⟩

-- ---------------------------------------------------------------------------
-- The two modes from one context
-- ---------------------------------------------------------------------------

variable [TokenValue V] {rules : Rules V}

theorem reportAny_leave (tried : Context V) (finding? : Option Diagnostic) (o o' : Outcome V)
    (name : String) (place : Option Position) (mark : Nat) :
    ∃ traces, (tried.reportAny finding?).leave name place mark o' =
      { tried.leave name place mark o with
        diagnostics := (tried.reportAny finding?).diagnostics, traces } := by
  obtain ⟨_, hleave⟩ := Context.leave_eq tried name place mark o
  obtain ⟨traces, hleave'⟩ := Context.leave_eq (tried.reportAny finding?) name place mark o'
  rw [hleave, hleave']
  cases finding? <;> exact ⟨traces, rfl⟩

/-- From one context, `safe` and `tryFast` end together, with one failure, or with the
longest match and the first one. The contexts that they leave differ at most in the trace and
in one finding, which `tryFast` adds where the two matches are of different options. -/
theorem checkedFirstOf_reports (location location' : String) (options : List (Parser V))
    (input : List (Token V)) (ctx : Context V) :
    ((∃ n, (run rules n (longestOf location options) input ctx).isSome) ↔
      ∃ n, (run rules n (checkedFirstOf location' options) input ctx).isSome) ∧
    ∀ m n o o' c c', run rules m (longestOf location options) input ctx = some (o, c) →
      run rules n (checkedFirstOf location' options) input ctx = some (o', c') →
      c' = { c with diagnostics := c'.diagnostics, traces := c'.traces } ∧
      ((∃ failure, o = .error failure ∧ o' = .error failure ∧ c'.diagnostics = c.diagnostics) ∨
      ∃ entered outcomes tried, ∃ first longest : Choice V,
        ctx.enter? "or" (firstPos input) = .ok entered ∧
        (trial .safe input options).Leads rules entered outcomes tried ∧
        tried.diagnostics = c.diagnostics ∧
        first.IsFirst outcomes ∧ longest.IsLongest outcomes ∧
        o = .ok longest.matched ∧ o' = .ok first.matched ∧
        (longest.number = first.number ∧ c'.diagnostics = c.diagnostics ∨
          first.number < longest.number ∧
          first.matched.consumed < longest.matched.consumed ∧
          c'.diagnostics = c.diagnostics.push (.reorder location' (firstPos input) first.number
            first.matched.consumed longest.number longest.matched.consumed))) := by
  cases hgate : ctx.enter? "or" (firstPos input) with
  | error refusal =>
    refine ⟨iff_of_true (exists_isSome_iff.2 ⟨_, _, choice_refused hgate ..⟩)
      (exists_isSome_iff.2 ⟨_, _, choice_refused hgate ..⟩), ?_⟩
    intro m n o o' c c' hrun hrun'
    obtain ⟨rfl, rfl⟩ := (exists_run_iff.1 ⟨m, hrun⟩).unique (choice_refused hgate ..)
    obtain ⟨rfl, rfl⟩ := (exists_run_iff.1 ⟨n, hrun'⟩).unique (choice_refused hgate ..)
    exact ⟨rfl, .inl ⟨refusal, rfl, rfl, rfl⟩⟩
  | ok entered =>
    constructor
    · rw [longestOf, checkedFirstOf, choice_ends_iff hgate rfl, choice_ends_iff hgate rfl,
        Option.getD_some, Option.getD_some, trial_tryFast]
    · intro m n o o' c c' hrun hrun'
      obtain ⟨outcomes, tried, htrial, rfl, rfl⟩ :=
        (choice_leads_iff hgate rfl).1 (exists_run_iff.1 ⟨m, hrun⟩)
      obtain ⟨_, _, htrial', rfl, rfl⟩ :=
        (choice_leads_iff hgate rfl).1 (exists_run_iff.1 ⟨n, hrun'⟩)
      -- Both have tried the same options, with the same outcomes.
      rw [Option.getD_some, trial_tryFast] at htrial'
      obtain ⟨rfl, rfl⟩ := htrial.unique htrial'
      have hsilent : finding? .safe location (firstPos input) outcomes = none := rfl
      obtain ⟨_, hleft⟩ := reportAny_leave tried
        (finding? .tryFast location' (firstPos input) outcomes)
        (conclude .safe (firstPos input) outcomes) (conclude .tryFast (firstPos input) outcomes)
        "or" (firstPos input) entered.traces.size
      simp only [Option.getD_some, hsilent, Context.leave_diagnostics]
      refine ⟨by rw [hleft, Context.reportAny], ?_⟩
      rcases conclude_cases location' (firstPos input) outcomes with
        ⟨failure, hsafe, htryFast, hfinding⟩ |
        ⟨c, hfirst, hlongest, hsafe, htryFast, hfinding⟩
      · exact .inl ⟨failure, hsafe, htryFast, by rw [hfinding]⟩
      · refine .inr ⟨entered, outcomes, tried, c.first, c.longest, rfl, htrial, rfl, hfirst,
          hlongest, hsafe, htryFast, ?_⟩
        rw [hfinding]
        rcases c.finding?_cases hfirst hlongest location' (firstPos input) with
          ⟨hsame, hnone⟩ | ⟨hnumber, hlt, hsome⟩
        · exact .inl ⟨hsame, by rw [hnone]⟩
        · exact .inr ⟨hnumber, hlt, by rw [hsome]; rfl⟩

end TokenGrammar.Parser

namespace TokenGrammar

def noneOneTwo : List (Parser Int64) := [.expected "none", Leaf.take 1 1, Leaf.take 2 2]

theorem noneOneTwo_reports : ∃ (o o' : Outcome Int64) (c c' : Context Int64)
    (first longest : Parser.Choice Int64),
    Parser.run (fun _ => none) 4 (.longestOf "here" noneOneTwo) (Token.ofTexts ["a", "b"])
      (.ofConfig .initial) = some (o, c) ∧
    Parser.run (fun _ => none) 4 (.checkedFirstOf "there" noneOneTwo) (Token.ofTexts ["a", "b"])
      (.ofConfig .initial) = some (o', c') ∧
    o = .ok longest.matched ∧ o' = .ok first.matched ∧ first.number < longest.number ∧
    c'.diagnostics = c.diagnostics.push (.reorder "there" (some (.atIndex 0)) first.number
      first.matched.consumed longest.number longest.matched.consumed) := by
  have hsafe : (Parser.run (fun _ => none) 4 (.longestOf "here" noneOneTwo)
      (Token.ofTexts ["a", "b"]) (.ofConfig .initial)).map
        (fun r => (r.1.isMatch, r.2.diagnostics.size)) = some (true, 0) := by
    decide +kernel
  have htryFast : (Parser.run (fun _ => none) 4 (.checkedFirstOf "there" noneOneTwo)
      (Token.ofTexts ["a", "b"]) (.ofConfig .initial)).map
        (fun r => (r.1.isMatch, r.2.diagnostics.size)) = some (true, 1) := by
    decide +kernel
  obtain ⟨⟨o, c⟩, hrun, heq⟩ := Option.map_eq_some_iff.1 hsafe
  obtain ⟨⟨o', c'⟩, hrun', heq'⟩ := Option.map_eq_some_iff.1 htryFast
  obtain ⟨hmatch, hsize⟩ := Prod.mk.inj heq
  obtain ⟨-, hsize'⟩ := Prod.mk.inj heq'
  obtain ⟨-, hreports⟩ := Parser.checkedFirstOf_reports "here" "there" noneOneTwo
    (Token.ofTexts ["a", "b"]) (.ofConfig .initial)
  obtain ⟨-, ⟨failure, rfl, -, -⟩ | ⟨_, _, _, first, longest, -, -, -, -, -, ho, ho', hfound⟩⟩ :=
    hreports _ _ _ _ _ _ hrun hrun'
  · cases hmatch
  · rcases hfound with ⟨-, hsame⟩ | ⟨hnumber, -, hreport⟩
    · rw [hsame, hsize] at hsize'
      cases hsize'
    · exact ⟨o, o', c, c', first, longest, hrun, hrun', ho, ho', hnumber, hreport⟩

end TokenGrammar
