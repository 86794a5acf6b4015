import TokenGrammar.Leaf
import TokenGrammar.Proofs.ModeSwitch
import TokenGrammar.Proofs.Survey

/-!
# The first match, with and without a survey

The modes `fast` and `tryFast` both take the first match. Up to there they do the same,
but `tryFast` goes on and tries the options behind it. One of these that fails
unrecoverably ends the choice in a failure; whatever else they come to, the match stays
and the logs only grow (`Parser.checkedFirstOf_beyond_firstOf`).
-/

namespace TokenGrammar

namespace Parser

variable {V : Type} [TokenValue V] {rules : Rules V}

/-- Whether `m` is what the first option that matches comes to, after options that fail
recoverably; `later` are the options behind it, and `config'` is what it leaves of the
options of the parse. -/
inductive FirstMatch (rules : Rules V) (input : List (Token V)) (depth : Nat) :
    Config → List (Parser V) → Match V → Config → List (Parser V) → Prop
  | here (alone : option.Alone rules input depth config ⟨.ok m, logged⟩ config') :
      FirstMatch rules input depth config (option :: later) m config' later
  | next {failure : Failure}
      (alone : option.Alone rules input depth config ⟨.error failure, logged⟩ config₁)
      (hrecoverable : failure.isRecoverable = true)
      (rest : FirstMatch rules input depth config₁ options m config' later) :
      FirstMatch rules input depth config (option :: options) m config' later

/-- Whether a choice that comes to `first` would come to `o` if it went on and tried the
options behind its first match, too. -/
def Beyond (rules : Rules V) (input : List (Token V)) (depth : Nat) (config : Config)
    (options : List (Parser V)) (first o : Outcome V) : Prop :=
  match first with
  | .error _ => o = first
  | .ok m => ∃ config' later attempts stop,
    FirstMatch rules input depth config options m config' later ∧
    Surveyed rules input depth config' later attempts stop ∧ o = ending stop first

-- ---------------------------------------------------------------------------
-- Behind the first match
-- ---------------------------------------------------------------------------

omit [TokenValue V] in
theorem keep_comparisonStep_first (attempts : List (Attempt V)) (number : Nat)
    (c : Comparison V) (failures : List Failure) :
    (keep comparisonStep (number, some c, failures) attempts).2.1.map (·.first) =
      some c.first := by
  induction attempts generalizing number c failures with
  | nil => rfl
  | cons a attempts ih =>
    rw [keep, List.foldl_cons, ← keep]
    cases a.outcome with
    | ok m => rw [comparisonStep, ih, Comparison.extend_first]
    | error failure => exact ih ..

theorem comparedFrom_some_iff {options : List (Parser V)} {c : Comparison V} {ctx : Context V} :
    (∃ ctx' es, Runs rules (comparedFrom location input options number (some c) failures)
      ctx o ctx' es) ↔
      ∃ attempts stop, Surveyed rules input ctx.depth ctx.config options attempts stop ∧
        o = ending stop (.ok c.first.matched) := by
  have hfinal : ∀ attempts : List (Attempt V),
      matchOrJoin (firstPos input) (keep comparisonStep (number, some c, failures) attempts).2.2
        ((keep comparisonStep (number, some c, failures) attempts).2.1.map (·.first.matched)) =
          .ok c.first.matched := by
    intro attempts
    have hfirst := keep_comparisonStep_first attempts number c failures
    have hmatched := congrArg (Option.map Choice.matched) hfirst
    rw [Option.map_map] at hmatched
    exact congrArg (matchOrJoin _ _) hmatched
  refine ((comparedFrom_surveys location input).runs_iff (number, some c, failures)).trans ?_
  simp only [hfinal]

-- ---------------------------------------------------------------------------
-- Up to the first match
-- ---------------------------------------------------------------------------

/-- A comparison does what taking the first match does, and after a match goes on. -/
theorem comparedFrom_cases {options : List (Parser V)} {ctx : Context V}
    (h : Runs rules (comparedFrom location input options number none failures) ctx o ctx' es) :
    ∃ first ctx₁ es₁ es₂, Runs rules (firstFrom input options failures) ctx first ctx₁ es₁ ∧
      es = es₁ ++ es₂ ∧ Beyond rules input ctx.depth ctx.config options first o := by
  induction options generalizing number failures ctx es with
  | nil =>
    obtain ⟨rfl, rfl, rfl⟩ := runs_done.1 h
    exact ⟨_, _, _, _, .done, rfl, rfl⟩
  | cons option options ih =>
    obtain ⟨outcome, ctx₁, nested, es₁, parse, rest, rfl⟩ := h.of_call
    cases outcome with
    | ok m =>
      -- Here the two part: one has ended, the other goes on with a match in hand.
      obtain ⟨attempts, stop, hsurvey, hends⟩ := comparedFrom_some_iff.1 ⟨_, _, rest⟩
      rw [parse.depth] at hsurvey
      refine ⟨_, _, _, es₁, .call parse .done, by simp, ?_⟩
      exact ⟨_, _, attempts, stop, .here (alone_of_runs parse), hsurvey, hends⟩
    | error failure =>
      simp only at rest
      split at rest
      · next hrecoverable =>
        obtain ⟨first, ctx₂, es₁, es₂, hfirst, rfl, hbeyond⟩ := ih rest
        refine ⟨first, ctx₂, _, es₂, .call parse ?_, (List.append_assoc ..).symm, ?_⟩
        · simp only [if_pos hrecoverable]
          exact hfirst
        · rw [parse.depth] at hbeyond
          cases first with
          | error _ => exact hbeyond
          | ok m =>
            obtain ⟨_, later, attempts, stop, hmatch, hsurvey, hends⟩ := hbeyond
            exact ⟨_, later, attempts, stop, .next (alone_of_runs parse) hrecoverable hmatch,
              hsurvey, hends⟩
      · next hfatal =>
        obtain ⟨rfl, rfl, rfl⟩ := runs_done.1 rest
        refine ⟨.error failure, ctx', _, [], ?_, (List.append_nil _).symm, rfl⟩
        refine .call parse ?_
        simp only [if_neg hfatal]
        exact .done

theorem comparedFrom_of_firstFrom_error {options : List (Parser V)} {ctx : Context V}
    {failure : Failure}
    (h : Runs rules (firstFrom input options failures) ctx (.error failure) ctx' es)
    (location : String) (number : Nat) :
    Runs rules (comparedFrom location input options number none failures) ctx (.error failure)
      ctx' es := by
  induction options generalizing number failures ctx es with
  | nil => exact h
  | cons option options ih =>
    obtain ⟨outcome, ctx₁, nested, es₁, parse, rest, rfl⟩ := h.of_call
    refine .call parse ?_
    cases outcome with
    | ok m => cases rest
    | error f =>
      simp only at rest ⊢
      split at rest
      · next hrecoverable =>
        rw [if_pos hrecoverable]
        exact ih rest _
      · next hfatal => rwa [if_neg hfatal]

theorem FirstMatch.comparedFrom {options : List (Parser V)} {ctx : Context V}
    (h : FirstMatch rules input depth config options m config' later)
    (hconfig : ctx.config = config) (hdepth : ctx.depth = depth)
    (hsurvey : Surveyed rules input depth config' later attempts stop) (location : String)
    (number : Nat) (failures : List Failure) :
    ∃ ctx' es, Runs rules (comparedFrom location input options number none failures) ctx
      (ending stop (.ok m)) ctx' es := by
  induction h generalizing ctx number failures with
  | here alone =>
    obtain ⟨ctx₁, nested, parse, rfl, rfl⟩ := alone.runs hconfig hdepth
    obtain ⟨ctx', es, rest⟩ := comparedFrom_some_iff.2 ⟨attempts, stop, hsurvey, rfl⟩
    exact ⟨ctx', _, .call parse rest⟩
  | @next _ _ _ _ _ _ _ _ failure alone hrecoverable _ ih =>
    obtain ⟨ctx₁, nested, parse, hconfig₁, hdepth₁⟩ := alone.runs hconfig hdepth
    obtain ⟨ctx', es, rest⟩ :=
      ih hconfig₁ hdepth₁ hsurvey (number + 1) (failures ++ [failure])
    refine ⟨ctx', _, .call parse (?_ : Runs rules _ _ _ _ es)⟩
    simp only [if_pos hrecoverable]
    exact rest

theorem Beyond.comparedFrom {options : List (Parser V)} {ctx : Context V}
    (h : Beyond rules input ctx.depth ctx.config options first o)
    (hfirst : Runs rules (firstFrom input options []) ctx first ctx₁ es₁) (location : String) :
    ∃ ctx' es, Runs rules (comparedFrom location input options 1 none []) ctx o ctx' es := by
  cases first with
  | error failure =>
    obtain rfl : o = .error failure := h
    exact ⟨_, _, comparedFrom_of_firstFrom_error hfirst location 1⟩
  | ok m =>
    obtain ⟨_, later, attempts, stop, hmatch, hsurvey, rfl⟩ := h
    exact hmatch.comparedFrom rfl rfl hsurvey location 1 []

-- ---------------------------------------------------------------------------
-- The two modes
-- ---------------------------------------------------------------------------

section
variable {options : List (Parser V)} {ctx ctx' : Context V}

theorem firstOf_of_checkedFirstOf
    (h : Runs rules ((checkedFirstOf location options).body rules input) ctx o ctx' es)
    (location' : String) :
    ∃ first ctx₁ es₁,
      Runs rules ((firstOf location' options).body rules input) ctx first ctx₁ es₁ ∧
      Beyond rules input (ctx.depth + 1) ctx.config options first o ∧
      ctx₁.failures.toList <+: ctx'.failures.toList ∧
      ctx₁.diagnostics.toList <+: ctx'.diagnostics.toList := by
  cases h with
  | refused gate rest =>
    obtain ⟨rfl, rfl, -⟩ := runs_done.1 rest
    exact ⟨_, _, _, .refused gate .done, rfl, List.prefix_rfl, List.prefix_rfl⟩
  | guarded gate inside rest =>
    obtain ⟨rfl, rfl, -⟩ := runs_done.1 rest
    obtain ⟨first, ctx₁, es₁, es₂, hfirst, rfl, hbeyond⟩ := comparedFrom_cases inside
    rw [Context.enter?_depth gate, Context.enter?_config gate] at hbeyond
    refine ⟨first, _, _, .guarded gate hfirst .done, hbeyond, ?_, ?_⟩
    · simp [hfirst.failures, inside.failures]
    · simp [hfirst.diagnostics, inside.diagnostics]

/-- The mode `tryFast` comes to what `fast` comes to, unless an option behind the first
match fails unrecoverably; then it fails with that. It comes to an end wherever `fast`
and the options behind do, and it only adds to what `fast` logs and reports. -/
theorem checkedFirstOf_beyond_firstOf (location location' : String) (options : List (Parser V))
    (input : List (Token V)) (ctx : Context V) :
    (∀ o, (checkedFirstOf location options).Returns rules input ctx o ↔
      ∃ first, (firstOf location' options).Returns rules input ctx first ∧
        Beyond rules input (ctx.depth + 1) ctx.config options first o) ∧
    ∀ m n first ctx₁ o ctx₂,
      run rules m (firstOf location' options) input ctx = some (first, ctx₁) →
      run rules n (checkedFirstOf location options) input ctx = some (o, ctx₂) →
      (o = first ∨ ∃ failure, o = .error failure ∧ failure.isRecoverable = false) ∧
      ctx₁.failures.toList <+: ctx₂.failures.toList ∧
      ctx₁.diagnostics.toList <+: ctx₂.diagnostics.toList := by
  refine ⟨fun o => ⟨fun h => ?_, ?_⟩, ?_⟩
  · obtain ⟨ctx', es, hruns⟩ := returns_iff.1 h
    obtain ⟨first, ctx₁, es₁, hfirst, hbeyond, -⟩ := firstOf_of_checkedFirstOf hruns location'
    exact ⟨first, returns_iff.2 ⟨ctx₁, es₁, hfirst⟩, hbeyond⟩
  · rintro ⟨first, hfirst, hbeyond⟩
    rw [returns_iff] at hfirst ⊢
    rcases runs_traced_iff.1 hfirst with ⟨refusal, gate, rfl⟩ | ⟨entered, gate, ctx₁, es, inside⟩
    · exact runs_traced_iff.2 (.inl ⟨refusal, gate, hbeyond⟩)
    · rw [← Context.enter?_depth gate, ← Context.enter?_config gate] at hbeyond
      exact runs_traced_iff.2 (.inr ⟨entered, gate, hbeyond.comparedFrom inside location⟩)
  · intro m n first ctx₁ o ctx₂ hfast htried
    obtain ⟨es, hruns⟩ := runs_of_run htried
    obtain ⟨first', ctx₁', es₁, hfirst, hbeyond, hlogs⟩ := firstOf_of_checkedFirstOf hruns location'
    -- The run of `fast` that `tryFast` goes through is the one given.
    obtain ⟨k, hk⟩ := parses_iff_run.1 ⟨_, es₁, hfirst, rfl⟩
    obtain ⟨rfl, rfl⟩ := Prod.mk.inj (run_unique hfast hk)
    refine ⟨?_, hlogs⟩
    cases first with
    | error _ => exact .inl hbeyond
    | ok m =>
      obtain ⟨_, _, attempts, stop, -, hsurvey, hends⟩ := hbeyond
      cases stop with
      | none => exact .inl hends
      | some failure => exact .inr ⟨failure, hends, hsurvey.fatal⟩

end

end Parser

def takeOrStop : List (Parser Int64) := [Leaf.take 1 1, .fail "stop"]

theorem takeOrStop_beyond_firstOf : ∃ m ctx₁ failure ctx₂,
    Parser.run (fun _ => none) 3 (.firstOf "here" takeOrStop) (Token.ofTexts ["a"])
      (.ofConfig .initial) = some (.ok m, ctx₁) ∧
    Parser.run (fun _ => none) 3 (.checkedFirstOf "here" takeOrStop) (Token.ofTexts ["a"])
      (.ofConfig .initial) = some (.error failure, ctx₂) ∧
    failure.isRecoverable = false ∧ ctx₁.failures.toList <+: ctx₂.failures.toList := by
  obtain ⟨⟨o₁, ctx₁⟩, hfast, ho₁⟩ := Option.map_eq_some_iff.1 <|
    show (Parser.run (fun _ => none) 3 (.firstOf "here" takeOrStop) (Token.ofTexts ["a"])
      (.ofConfig .initial)).map (·.1.isMatch) = some true by decide +kernel
  obtain ⟨⟨o₂, ctx₂⟩, htried, ho₂⟩ := Option.map_eq_some_iff.1 <|
    show (Parser.run (fun _ => none) 3 (.checkedFirstOf "here" takeOrStop) (Token.ofTexts ["a"])
      (.ofConfig .initial)).map (·.1.isMatch) = some false by decide +kernel
  have hbeyond := (Parser.checkedFirstOf_beyond_firstOf "here" "here" takeOrStop
    (Token.ofTexts ["a"]) (.ofConfig .initial)).2 3 3 o₁ ctx₁ o₂ ctx₂ hfast htried
  obtain ⟨rfl | ⟨failure, rfl, hfatal⟩, hfailures, -⟩ := hbeyond
  · simp_all
  · cases o₁ with
    | error _ => cases ho₁
    | ok m => exact ⟨m, ctx₁, failure, ctx₂, hfast, htried, hfatal, hfailures⟩

def takeOrRecover : List (Parser Int64) :=
  [Leaf.take 1 1, .recover (Leaf.take 0 0) (.expected "a") (Leaf.take 1 0)]

/-- Where `fast` takes the first match, `tryFast` may fail with what a later option fails
with, and may log what a later option recovers from. No leaf here does anything but
answer. -/
theorem later_options_matter :
    (∀ p ∈ takeOrStop, p.Clients fun a => ∃ answer, a = .done answer) ∧
    (Parser.run (fun _ => none) 3 (.firstOf "here" takeOrStop) (Token.ofTexts ["a"])
      (.ofConfig .initial)).map (·.1.toOption) = some (some ⟨1, Token.ofTexts ["a"]⟩) ∧
    (Parser.run (fun _ => none) 3 (.checkedFirstOf "here" takeOrStop) (Token.ofTexts ["a"])
      (.ofConfig .initial)).map (Event.failure? ·.1) =
        some (some (.critical "stop" (some (.atIndex 0)))) ∧
    (Parser.run (fun _ => none) 4 (.firstOf "here" takeOrRecover) (Token.ofTexts ["a"])
      (.ofConfig .initial)).map (·.2.failures) = some #[] ∧
    (Parser.run (fun _ => none) 4 (.checkedFirstOf "here" takeOrRecover) (Token.ofTexts ["a"])
      (.ofConfig .initial)).map (·.2.failures) =
        some #[.notMatch "a" "found something else" (some (.atIndex 0))] := by
  refine ⟨?_, by decide +kernel⟩
  simp [takeOrStop, Parser.Clients, Leaf.take, Action.succeed]

end TokenGrammar
