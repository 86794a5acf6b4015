import TokenGrammar.Evaluation
import TokenGrammar.Leaf
import TokenGrammar.Proofs.Frame

/-!
# What the options of a choice log

A choice of the longest match tries all its options in one context, and nothing is ever
taken off a log. So what a losing option logged, where it recovered, stays beside what
the chosen one did. Each option logs what it would log alone: a run depends on the
options and the depth of its context and on nothing else there (`Runs.elsewhere`).
-/

namespace TokenGrammar

variable {V : Type}

-- ---------------------------------------------------------------------------
-- Runs from another context
-- ---------------------------------------------------------------------------

structure Context.Same (ctx c : Context V) : Prop where
  config : c.config = ctx.config
  depth : c.depth = ctx.depth

namespace Context.Same

variable {ctx c : Context V}

theorem checks (h : ctx.Same c) : c.Checks converted ↔ ctx.Checks converted := by
  simp only [Checks, checksTransforms, h.config]

theorem scratch (h : ctx.Same c) : c.scratch = ctx.scratch := by
  simp only [Context.scratch, h.config]

theorem enter (h : ctx.Same c) (gate : ctx.enter? name place = .ok entered) :
    ∃ entered', c.enter? name place = .ok entered' ∧ entered.Same entered' := by
  obtain ⟨entered', gate'⟩ :=
    enter?_ok_congr (congrArg Config.maxDepth h.config).symm h.depth.symm gate
  refine ⟨entered', gate', ?_, ?_⟩
  · rw [enter?_config gate, enter?_config gate', h.config]
  · rw [enter?_depth gate, enter?_depth gate', h.depth]

theorem logFailure (h : ctx.Same c) (failure : Failure) (fallback : Option Position) :
    (ctx.logFailure failure fallback).Same (c.logFailure failure fallback) :=
  ⟨h.config, h.depth⟩

theorem report (h : ctx.Same c) (diagnostic : Diagnostic) :
    (ctx.report diagnostic).Same (c.report diagnostic) :=
  ⟨h.config, h.depth⟩

theorem withPartials (h : ctx.Same c) (partials partials' : List (Token V)) :
    { ctx with partials }.Same { c with partials := partials' } :=
  ⟨h.config, h.depth⟩

theorem configure (h : ctx.Same c) (change : Config → Config) :
    (ctx.configure change).Same (c.configure change) :=
  ⟨congrArg change h.config, h.depth⟩

variable [TokenValue V]

theorem leave (h : ctx.Same c) :
    (ctx.leave name place mark o).Same (c.leave name place mark' o) := by
  constructor <;> simp [h.config, h.depth]

theorem afterCheck (h : ctx.Same c) :
    (ctx.afterCheck location converted o).Same (c.afterCheck location converted o) := by
  constructor <;> simp [h.config, h.depth]

end Context.Same

variable [TokenValue V] {rules : Rules V}

theorem Runs.elsewhere (h : Runs rules a ctx x ctx' es) (hsame : ctx.Same c) :
    ∃ c', Runs rules a c x c' es ∧ ctx'.Same c' := by
  induction h generalizing c with
  | done => exact ⟨c, .done, hsame⟩
  | call _ _ ihParse ih =>
    obtain ⟨c₁, hparse, hsame₁⟩ := ihParse hsame
    obtain ⟨c₂, hrest, hsame₂⟩ := ih hsame₁
    exact ⟨c₂, .call hparse hrest, hsame₂⟩
  | refused gate _ ih =>
    have gate' := Context.enter?_error_congr (congrArg Config.maxDepth hsame.config).symm
      hsame.depth.symm gate
    obtain ⟨c₁, hrest, hsame₁⟩ := ih hsame
    exact ⟨c₁, .refused gate' hrest, hsame₁⟩
  | guarded gate _ _ ihInside ih =>
    obtain ⟨entered', gate', hentered⟩ := hsame.enter gate
    obtain ⟨c₁, hinside, hsame₁⟩ := ihInside hentered
    obtain ⟨c₂, hrest, hsame₂⟩ := ih hsame₁.leave
    rw [← hentered.depth]
    exact ⟨c₂, .guarded gate' hinside hrest, hsame₂⟩
  | client _ _ ihInside ih =>
    obtain ⟨c₁, hinside, hsame₁⟩ := ihInside hsame
    obtain ⟨c₂, hrest, hsame₂⟩ := ih hsame₁
    exact ⟨c₂, .client hinside hrest, hsame₂⟩
  | askMode _ ih =>
    obtain ⟨c₁, hrest, hsame₁⟩ := ih hsame
    rw [← hsame.config] at hrest
    exact ⟨c₁, .askMode hrest, hsame₁⟩
  | logFailure _ ih =>
    obtain ⟨c₁, hrest, hsame₁⟩ := ih (hsame.logFailure _ _)
    exact ⟨c₁, .logFailure hrest, hsame₁⟩
  | report _ ih =>
    obtain ⟨c₁, hrest, hsame₁⟩ := ih (hsame.report _)
    exact ⟨c₁, .report hrest, hsame₁⟩
  | clearPartials _ ih =>
    obtain ⟨c₁, hrest, hsame₁⟩ := ih (hsame.withPartials _ _)
    exact ⟨c₁, .clearPartials hrest, hsame₁⟩
  | keepPartials _ ih =>
    obtain ⟨c₁, hrest, hsame₁⟩ := ih (hsame.withPartials _ _)
    exact ⟨c₁, .keepPartials hrest, hsame₁⟩
  | unchecked off _ ih =>
    obtain ⟨c₁, hrest, hsame₁⟩ := ih hsame
    exact ⟨c₁, .unchecked (fun on => off (hsame.checks.1 on)) hrest, hsame₁⟩
  | checked on parse _ _ ih =>
    obtain ⟨c₁, hrest, hsame₁⟩ := ih hsame.afterCheck
    rw [← hsame.scratch] at parse
    exact ⟨c₁, .checked (hsame.checks.2 on) parse hrest, hsame₁⟩
  | configure _ ih =>
    obtain ⟨c₁, hrest, hsame₁⟩ := ih (hsame.configure _)
    exact ⟨c₁, .configure hrest, hsame₁⟩

-- ---------------------------------------------------------------------------
-- Options tried alone, and in one context
-- ---------------------------------------------------------------------------

structure Attempt (V : Type) where
  outcome : Outcome V
  logged : List Failure

namespace Parser

/-- Whether a parser comes to this attempt, and leaves the options `config'`, in every
context that has these options and this depth. -/
def Alone (rules : Rules V) (input : List (Token V)) (depth : Nat) (config : Config)
    (p : Parser V) (attempt : Attempt V) (config' : Config) : Prop :=
  ∀ ctx : Context V, ctx.config = config → ctx.depth = depth →
    ∃ n ctx', run rules n p input ctx = some (attempt.outcome, ctx') ∧
      ctx'.failures.toList = ctx.failures.toList ++ attempt.logged ∧ ctx'.config = config'

/-- Whether these attempts are what the options come to alone, each with the options of
the parse that the one before it left. -/
inductive Tried (rules : Rules V) (input : List (Token V)) (depth : Nat) :
    Config → List (Parser V) → List (Attempt V) → Prop
  | nil : Tried rules input depth config [] []
  | cons (alone : option.Alone rules input depth config attempt config')
      (rest : Tried rules input depth config' options attempts) :
      Tried rules input depth config (option :: options) (attempt :: attempts)

theorem alone_of_runs {p : Parser V} (h : Runs rules (p.body rules input) ctx o ctx' es) :
    p.Alone rules input ctx.depth ctx.config ⟨o, es.filterMap Event.logged?⟩ ctx'.config := by
  intro c hconfig hdepth
  obtain ⟨c', hrun, hsame⟩ := h.elsewhere ⟨hconfig, hdepth⟩
  obtain ⟨n, hn⟩ := parses_iff_run.1 ⟨_, _, hrun, rfl⟩
  exact ⟨n, c', hn, hrun.failures, hsame.config⟩

end Parser

section
omit [TokenValue V]

theorem Parser.longer_cases (best : Option (Match V)) (m : Match V) :
    (longer best m = m ∧ ∀ b ∈ best, b.consumed < m.consumed) ∨
      (best = some (longer best m) ∧ m.consumed ≤ (longer best m).consumed) := by
  cases best with
  | none => exact .inl ⟨rfl, nofun⟩
  | some b =>
    by_cases hlt : b.consumed < m.consumed
    · exact .inl ⟨if_pos hlt, fun b' hb' => Option.some.inj hb' ▸ hlt⟩
    · have hkept : longer (some b) m = b := if_neg hlt
      rw [hkept]
      exact .inr ⟨rfl, Nat.le_of_not_lt hlt⟩

/-- Whether `m` is the longest match of `best`, which came first, and the attempts; of
equal ones the first. -/
inductive Selects : Option (Match V) → List (Attempt V) → Match V → Prop
  | kept (hlater : ∀ a ∈ later, ∀ m', a.outcome = .ok m' → m'.consumed ≤ m.consumed) :
      Selects (some m) later m
  | taken (hbest : ∀ b ∈ best, b.consumed < m.consumed)
      (hearlier : ∀ a ∈ earlier, ∀ m', a.outcome = .ok m' → m'.consumed < m.consumed)
      (hlater : ∀ a ∈ later, ∀ m', a.outcome = .ok m' → m'.consumed ≤ m.consumed) :
      Selects best (earlier ++ ⟨.ok m, logs⟩ :: later) m

variable {attempts : List (Attempt V)}

theorem Selects.after_error (h : Selects best attempts m) (failure : Failure)
    (logs : List Failure) : Selects best (⟨.error failure, logs⟩ :: attempts) m := by
  cases h with
  | kept hlater => exact .kept (List.forall_mem_cons.2 ⟨nofun, hlater⟩)
  | taken hbest hearlier hlater =>
    rw [← List.cons_append]
    exact .taken hbest (List.forall_mem_cons.2 ⟨nofun, hearlier⟩) hlater

theorem Selects.after_match {first : Match V}
    (h : Selects (some (Parser.longer best first)) attempts m) (logs : List Failure) :
    Selects best (⟨.ok first, logs⟩ :: attempts) m := by
  -- Either the match is the longest so far, or `best` stays what it was.
  rcases Parser.longer_cases best first with ⟨hfirst, hbest⟩ | ⟨hbest, hfirst⟩
  · rw [hfirst] at h
    cases h with
    | kept hlater =>
      rw [← List.nil_append (_ :: attempts)]
      exact .taken hbest nofun hlater
    | taken hlonger hearlier hlater =>
      have hlt : first.consumed < m.consumed := hlonger first rfl
      rw [← List.cons_append]
      refine .taken (fun b hb => Nat.lt_trans (hbest b hb) hlt)
        (List.forall_mem_cons.2 ⟨fun m' hm' => ?_, hearlier⟩) hlater
      cases hm'
      exact hlt
  · generalize Parser.longer best first = b at h hbest hfirst
    subst hbest
    cases h with
    | kept hlater =>
      refine .kept (List.forall_mem_cons.2 ⟨fun m' hm' => ?_, hlater⟩)
      cases hm'
      exact hfirst
    | taken hlonger hearlier hlater =>
      rw [← List.cons_append]
      refine .taken hlonger
        (List.forall_mem_cons.2 ⟨fun m' hm' => ?_, hearlier⟩) hlater
      cases hm'
      exact Nat.lt_of_le_of_lt hfirst (hlonger _ rfl)

theorem Selects.of_none (h : Selects none attempts m) :
    ∃ earlier logs later, attempts = earlier ++ ⟨.ok m, logs⟩ :: later ∧
      (∀ a ∈ earlier, ∀ m', a.outcome = .ok m' → m'.consumed < m.consumed) ∧
      ∀ a ∈ later, ∀ m', a.outcome = .ok m' → m'.consumed ≤ m.consumed := by
  cases h with
  | taken _ hearlier hlater => exact ⟨_, _, _, rfl, hearlier, hlater⟩

end

namespace Parser

theorem longestFrom_tries {options : List (Parser V)}
    (h : Runs rules (longestFrom input options best failures) ctx (.ok m) ctx' es) :
    ∃ attempts, Tried rules input ctx.depth ctx.config options attempts ∧
      Selects best attempts m ∧
      ctx'.failures.toList = ctx.failures.toList ++ attempts.flatMap (·.logged) := by
  induction options generalizing best failures ctx es with
  | nil =>
    cases best with
    | none => cases h
    | some b =>
      obtain ⟨heq, rfl, -⟩ := runs_done.1 h
      cases heq
      exact ⟨[], .nil, .kept nofun, by simp⟩
  | cons option options ih =>
    obtain ⟨o, ctx₁, nested, es₁, hoption, hrest, -⟩ := h.of_call
    obtain ⟨best', failures', hrest, hselects⟩ : ∃ best' failures',
        Runs rules (longestFrom input options best' failures') ctx₁ (.ok m) ctx' es₁ ∧
        ∀ attempts, Selects best' attempts m →
          Selects best (⟨o, nested.filterMap Event.logged?⟩ :: attempts) m := by
      cases o with
      | ok first => exact ⟨_, _, hrest, fun _ h => h.after_match _⟩
      | error failure =>
        simp only at hrest
        split at hrest
        · exact ⟨_, _, hrest, fun _ h => h.after_error failure _⟩
        · cases hrest
    obtain ⟨attempts, htried, hchosen, hlogs⟩ := ih hrest
    rw [hoption.depth] at htried
    exact ⟨_, .cons (alone_of_runs hoption) htried, hselects attempts hchosen,
      by simp [hlogs, hoption.failures]⟩

theorem safe_choice_tries {options : List (Parser V)}
    (hsafe : mode.getD ctx.config.choiceMode = .safe)
    (h : Runs rules ((Parser.choice location mode options).body rules input) ctx (.ok m) ctx' es) :
    ∃ attempts, Tried rules input (ctx.depth + 1) ctx.config options attempts ∧
      Selects none attempts m ∧
      ctx'.failures.toList = ctx.failures.toList ++ attempts.flatMap (·.logged) := by
  obtain ⟨entered, ctx₁, nested, gate, hregion, rfl⟩ := h.of_traced_ok
  have hlongest : ∃ nested, Runs rules (longestFrom input options none []) entered (.ok m) ctx₁
      nested := by
    cases mode with
    | some mode =>
      obtain rfl : mode = .safe := hsafe
      exact ⟨nested, hregion⟩
    | none =>
      cases hregion with
      | askMode rest =>
        rw [Context.enter?_config gate, show ctx.config.choiceMode = .safe from hsafe] at rest
        exact ⟨_, rest⟩
  obtain ⟨nested, hlongest⟩ := hlongest
  obtain ⟨attempts, htried, hselects, hlogs⟩ := longestFrom_tries hlongest
  rw [Context.enter?_depth gate, Context.enter?_config gate] at htried
  rw [Context.enter?_failures gate] at hlogs
  exact ⟨attempts, htried, hselects, by rw [Context.leave_failures, hlogs]⟩

theorem evaluate_of_match {p : Parser V} {ctx ctx' : Context V}
    (hrun : run rules n p tokens ctx.reset = some (.ok m, ctx')) :
    evaluate rules n p tokens ctx = some
      (if ctx'.failures.toList = [] then .ok (m.produced.map (·.val))
        else .error (.join ctx'.failures.toList none), ctx'.finish tokens m) := by
  rw [evaluate, hrun]
  by_cases hempty : ctx'.failures = #[]
  · simp [Context.settle, Context.answer, Context.failure?, Context.finish, hempty]
  · simp [Context.settle, Context.answer, Context.failure?, Context.finish, hempty]

theorem evaluate_of_run {p : Parser V} {ctx ctx' : Context V}
    (hrun : run rules n p tokens ctx.reset = some (.ok m, ctx')) :
    ∃ ended, evaluate rules n p tokens ctx = some
      (if ctx'.failures.toList = [] then .ok (m.produced.map (·.val))
        else .error (.join ctx'.failures.toList none), ended) :=
  ⟨_, evaluate_of_match hrun⟩

/-- A choice in safe mode that succeeds takes the leftmost of the longest matches, and
has logged what each option logs alone, chosen or not, in their order. So an evaluation
of it succeeds only where no option at all logged a failure. -/
theorem safe_choice_logs {options : List (Parser V)}
    (hsafe : mode.getD ctx.config.choiceMode = .safe)
    (hrun : run rules n (.choice location mode options) input ctx = some (.ok m, ctx')) :
    ∃ earlier chosen later,
      Tried rules input (ctx.depth + 1) ctx.config options (earlier ++ chosen :: later) ∧
      chosen.outcome = .ok m ∧
      (∀ a ∈ earlier, ∀ m', a.outcome = .ok m' → m'.consumed < m.consumed) ∧
      (∀ a ∈ later, ∀ m', a.outcome = .ok m' → m'.consumed ≤ m.consumed) ∧
      ctx'.failures.toList = ctx.failures.toList ++
        (earlier.flatMap (·.logged) ++ chosen.logged ++ later.flatMap (·.logged)) ∧
      ∀ start : Context V, ctx = start.reset → ∃ ended,
        evaluate rules n (.choice location mode options) input start = some
          (if ∀ a ∈ earlier ++ chosen :: later, a.logged = [] then
            .ok (m.produced.map (·.val))
          else .error (.join ((earlier ++ chosen :: later).flatMap (·.logged)) none), ended) := by
  obtain ⟨es, h⟩ := runs_of_run hrun
  obtain ⟨attempts, htried, hselects, hlogs⟩ := safe_choice_tries hsafe h
  obtain ⟨earlier, logs, later, rfl, hearlier, hlater⟩ := hselects.of_none
  refine ⟨earlier, ⟨.ok m, logs⟩, later, htried, rfl, hearlier, hlater, by simpa using hlogs, ?_⟩
  rintro start rfl
  have hall : ctx'.failures.toList = (earlier ++ ⟨.ok m, logs⟩ :: later).flatMap (·.logged) := hlogs
  obtain ⟨ended, hevaluate⟩ := evaluate_of_run hrun
  rw [hall] at hevaluate
  simp only [List.flatMap_eq_nil_iff] at hevaluate
  exact ⟨ended, hevaluate⟩

end Parser

def recoverOrTwo : List (Parser Int64) :=
  [.recover (Leaf.take 0 0) (.expected "a") (Leaf.take 1 0), Leaf.take 2 2]

theorem recoverOrTwo_logs : ∃ m, ∃ ctx : Context Int64, ∃ earlier chosen later,
    Parser.run (fun _ => none) 4 (.longestOf "here" recoverOrTwo) (Token.ofTexts ["a", "b"])
      (.ofConfig .initial) = some (.ok m, ctx) ∧ m.consumed = 2 ∧
    Parser.Tried (fun _ => none) (Token.ofTexts ["a", "b"]) 1 .initial recoverOrTwo
      (earlier ++ chosen :: later) ∧
    chosen.outcome = .ok m ∧
    ctx.failures.toList =
      earlier.flatMap (·.logged) ++ chosen.logged ++ later.flatMap (·.logged) := by
  have hlength : (Parser.run (fun _ => none) 4 (.longestOf "here" recoverOrTwo)
      (Token.ofTexts ["a", "b"]) (.ofConfig .initial)).map (·.1.toOption.map (·.consumed)) =
        some (some 2) := by
    decide +kernel
  obtain ⟨⟨o, ctx⟩, hrun, ho⟩ := Option.map_eq_some_iff.1 hlength
  cases o with
  | error failure => cases ho
  | ok m =>
    obtain ⟨earlier, chosen, later, htried, houtcome, -, -, hlogs, -⟩ :=
      Parser.safe_choice_logs rfl hrun
    exact ⟨m, ctx, earlier, chosen, later, hrun, Option.some.inj ho, htried, houtcome, hlogs⟩

/-- The longer option is taken and logs nothing alone, and yet the mismatch that the
other one logged is what an evaluation ends with. -/
theorem losing_option_reported :
    (Parser.run (fun _ => none) 4 (.longestOf "here" recoverOrTwo) (Token.ofTexts ["a", "b"])
      (.ofConfig .initial)).map (fun r => (r.1.toOption.map (·.consumed), r.2.failures.size)) =
        some (some 2, 1) ∧
    (Parser.run (fun _ => none) 4 (Leaf.take 2 2 : Parser Int64) (Token.ofTexts ["a", "b"])
      { Context.ofConfig .initial with depth := 1 }).map
        (fun r => (r.1.toOption.map (·.consumed), r.2.failures.size)) = some (some 2, 0) ∧
    (Parser.evaluate (fun _ => none) 4 (.longestOf "here" recoverOrTwo)
      (Token.ofTexts ["a", "b"]) (.ofConfig .initial)).map (Event.failure? ·.1) =
        some (some (.notMatch "a" "found something else" (some (.atIndex 0)))) := by
  decide +kernel

end TokenGrammar
