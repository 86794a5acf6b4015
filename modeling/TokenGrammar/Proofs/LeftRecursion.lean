import TokenGrammar.Proofs.Classification
import TokenGrammar.Proofs.Evaluations
import TokenGrammar.Proofs.Recurrence

/-!
# Left recursion ends at the limit on depth

A rule whose alternation has an option that begins with the rule itself goes one level
deeper on the same input each time that option is tried. Under a limit the guard refuses
at last, at whichever level of the rule, the alternation or the sequence, and the refusal
goes up unchanged (`Action.Overflows`). The options before it are tried again on each
level: they must leave the way to the left-recursive one open (`Parser.StandsAside`).
-/

namespace TokenGrammar

open TokenGrammar.Action (traced failWith)
open TokenGrammar.Parser (longestFrom)

-- ---------------------------------------------------------------------------
-- Overflows
-- ---------------------------------------------------------------------------

structure Failure.Overflow (f : Failure) : Prop where
  overflow : f.is .stackOverflow = true
  fatal : f.isRecoverable = false

namespace Failure

theorem Overflow.refusal (depth maxDepth : Nat) (pos : Option Position) :
    (Failure.stackOverflow depth maxDepth pos).Overflow := ⟨rfl, rfl⟩

theorem is_orAt (f : Failure) (k : FaultKind) (fallback : Option Position) :
    (f.orAt fallback).is k = f.is k := by
  cases f with
  | single fault pos => cases pos <;> rfl
  | joined members pos => cases pos <;> rfl

theorem Overflow.orAt {f : Failure} (h : f.Overflow) (fallback : Option Position) :
    (f.orAt fallback).Overflow where
  overflow := by rw [is_orAt, h.overflow]
  fatal := by rw [isRecoverable, is_orAt, is_orAt, ← isRecoverable, h.fatal]

end Failure

variable {V : Type} [TokenValue V] {rules : Rules V}

/-- Whether an action ends with an overflow in this context, and logs nothing on the way. -/
def Action.Overflows (rules : Rules V) (a : Parser.Step V) (ctx : Context V) : Prop :=
  ∃ f ctx' es, Runs rules a ctx (.error f) ctx' es ∧ f.Overflow ∧ ctx'.failures = ctx.failures

namespace Action.Overflows

variable {ctx : Context V}

theorem failWith {f : Failure} (h : f.Overflow) :
    (failWith f : Parser.Step V).Overflows rules ctx := ⟨f, ctx, [], .done, h, rfl⟩

theorem traced {region : Parser.Step V}
    (h : ∀ entered, ctx.enter? name (firstPos input) = .ok entered →
      region.Overflows rules entered) : (traced name input region).Overflows rules ctx := by
  cases hgate : ctx.enter? name (firstPos input) with
  | error refusal =>
    obtain ⟨-, rfl⟩ := Context.enter?_error hgate
    exact ⟨_, _, _, .refused hgate .done, .refusal .., rfl⟩
  | ok entered =>
    obtain ⟨f, ctx', _, hregion, hf, hlog⟩ := h entered hgate
    exact ⟨f, _, _, .guarded hgate hregion .done, hf,
      by rw [Context.leave_failures, hlog, Context.enter?_failures hgate]⟩

/-- An action that comes to another one without a failure logged overflows where that does. -/
theorem of_runs {a b : Parser.Step V} (h : b.Overflows rules ctx₁)
    (hlog : ctx₁.failures = ctx.failures)
    (hruns : ∀ {o ctx' es}, Runs rules b ctx₁ o ctx' es → ∃ es', Runs rules a ctx o ctx' es') :
    a.Overflows rules ctx := by
  obtain ⟨f, ctx', _, hb, hf, hlog'⟩ := h
  obtain ⟨es', ha⟩ := hruns hb
  exact ⟨f, ctx', es', ha, hf, hlog'.trans hlog⟩

theorem call {next : Outcome V → Parser.Step V}
    (parse : Runs rules (p.body rules input) ctx o ctx₁ es) (hlog : ctx₁.failures = ctx.failures)
    (h : (next o).Overflows rules ctx₁) : (Action.call p input next).Overflows rules ctx :=
  h.of_runs hlog fun hrest => ⟨_, .call parse hrest⟩

theorem passed {next : Outcome V → Parser.Step V} (h : (p.body rules input).Overflows rules ctx)
    (hnext : ∀ f : Failure, f.Overflow → ∀ ctx, (next (.error f)).Overflows rules ctx) :
    (Action.call p input next).Overflows rules ctx := by
  obtain ⟨f, ctx₁, _, hparse, hf, hlog⟩ := h
  exact .call hparse hlog (hnext f hf ctx₁)

theorem clearPartials {next : Parser.Step V}
    (h : next.Overflows rules { ctx with partials := [] }) :
    (Action.clearPartials next).Overflows rules ctx :=
  h.of_runs rfl fun hrest => ⟨_, .clearPartials hrest⟩

theorem keepPartials {next : Parser.Step V}
    (h : next.Overflows rules { ctx with partials := produced ++ ctx.partials }) :
    (Action.keepPartials produced next).Overflows rules ctx :=
  h.of_runs rfl fun hrest => ⟨_, .keepPartials hrest⟩

theorem askMode {next : ChoiceMode → Parser.Step V}
    (h : (next ctx.config.choiceMode).Overflows rules ctx) :
    (Action.askMode next).Overflows rules ctx :=
  h.of_runs rfl fun hrest => ⟨_, .askMode hrest⟩

end Action.Overflows

-- ---------------------------------------------------------------------------
-- Left-recursive rules
-- ---------------------------------------------------------------------------

/-- Whether a parser is a sequence that begins with the rule, perhaps converted. -/
inductive Parser.LeftRecursive (rule : RuleId) : Parser V → Prop
  | seq : LeftRecursive rule (.seq label (.ref name rule :: after))
  | transform (item : LeftRecursive rule p) :
      LeftRecursive rule (.transform location p convert)

structure Config.Confined (mode : Option ChoiceMode) (bound : Nat) (config : Config) : Prop
    extends config.Capped bound where
  safe : mode.getD config.choiceMode = .safe

/-- Whether a parser comes to an end on `input` under such options, leaves them such and
the log of failures as it was, and fails otherwise than recoverably at the limit alone. -/
def Parser.StandsAside (rules : Rules V) (input : List (Token V)) (mode : Option ChoiceMode)
    (bound : Nat) (p : Parser V) : Prop :=
  ∀ ctx, ctx.config.Confined mode bound → ∃ n o ctx', run rules n p input ctx = some (o, ctx') ∧
    ctx'.config.Confined mode bound ∧ ctx'.failures = ctx.failures ∧
    ∀ f, o = .error f → f.isRecoverable = true ∨ f.is .stackOverflow = true

section
variable {input : List (Token V)} {mode : Option ChoiceMode} {bound : Nat}

/-- The longest match overflows where one of the options does and those before it stand
aside: they match, fail recoverably or overflow themselves. -/
theorem Action.Overflows.longestFrom {earlier later : List (Parser V)} {left : Parser V}
    {best : Option (Match V)} (hearlier : ∀ p ∈ earlier, p.StandsAside rules input mode bound)
    {ctx : Context V} (hctx : ctx.config.Confined mode bound)
    (hleft : ∀ ctx₁ : Context V, ctx₁.config.Confined mode bound → ctx₁.depth = ctx.depth →
      (left.body rules input).Overflows rules ctx₁) :
    (longestFrom input (earlier ++ left :: later) best failures).Overflows rules ctx := by
  induction earlier generalizing ctx best failures with
  | nil =>
    refine .passed (hleft ctx hctx rfl) fun f hf _ => ?_
    simp only [hf.fatal, Bool.false_eq_true, if_false]
    exact .failWith hf
  | cons p earlier ih =>
    obtain ⟨hp, hrest⟩ := List.forall_mem_cons.1 hearlier
    obtain ⟨n, o, ctx₁, hrun, hconfig, hlog, hfails⟩ := hp ctx hctx
    obtain ⟨_, hparse⟩ := runs_of_run hrun
    have hon : ∀ best failures, (Parser.longestFrom input (earlier ++ left :: later) best
        failures).Overflows rules ctx₁ := fun _ _ =>
      ih hrest hconfig fun ctx₂ hctx₂ hdepth => hleft ctx₂ hctx₂ (hdepth.trans hparse.depth)
    refine .call hparse hlog ?_
    cases o with
    | ok m => exact hon ..
    | error f =>
      simp only
      split
      · exact hon ..
      · next hfatal =>
        exact .failWith ⟨(hfails f rfl).resolve_left hfatal, Bool.not_eq_true _ ▸ hfatal⟩

theorem Parser.LeftRecursive.overflows {p : Parser V} (h : p.LeftRecursive rule) {ctx : Context V}
    (hrule : ∀ name, ∀ ctx₁ : Context V, ctx₁.config = ctx.config → ctx.depth < ctx₁.depth →
      ((Parser.ref name rule).body rules input).Overflows rules ctx₁) :
    (p.body rules input).Overflows rules ctx := by
  induction h with
  | seq =>
    refine .traced fun entered hgate => .clearPartials (.passed ?_ fun f hf _ => ?_)
    · have hconfig : entered.config = ctx.config := Context.enter?_config hgate
      have hdepth : entered.depth = ctx.depth + 1 := Context.enter?_depth hgate
      exact hrule _ _ hconfig (Nat.lt_of_lt_of_eq (Nat.lt_succ_self _) hdepth.symm)
    · refine .keepPartials (.failWith ?_)
      split
      · exact hf.orAt _
      · exact hf
  | transform _ ih => exact .passed ih fun f hf _ => .failWith hf

variable {location : String} {earlier later : List (Parser V)} {left : Parser V}
  (hleft : left.LeftRecursive rule)
  (hearlier : ∀ p ∈ earlier, p.StandsAside rules input mode bound)
include hleft hearlier

theorem Parser.LeftRecursive.choice_overflows {ctx : Context V}
    (hctx : ctx.config.Confined mode bound)
    (hrule : ∀ name, ∀ ctx₁ : Context V, ctx₁.config.Confined mode bound →
      ctx.depth < ctx₁.depth → ((Parser.ref name rule).body rules input).Overflows rules ctx₁) :
    ((Parser.choice location mode (earlier ++ left :: later)).body rules input).Overflows
      rules ctx := by
  refine .traced fun entered hgate => ?_
  have hentered : entered.config.Confined mode bound := by rwa [Context.enter?_config hgate]
  have hlongest : (longestFrom input (earlier ++ left :: later) none []).Overflows
      rules entered := by
    refine .longestFrom hearlier hentered fun ctx₁ hctx₁ hdepth => ?_
    refine hleft.overflows fun name ctx₂ hctx₂ hdeeper => hrule name ctx₂ (hctx₂ ▸ hctx₁) ?_
    rw [hdepth, Context.enter?_depth hgate] at hdeeper
    exact Nat.lt_of_succ_lt hdeeper
  cases mode with
  | some mode =>
    obtain rfl : mode = .safe := hctx.safe
    exact hlongest
  | none =>
    refine .askMode ?_
    have hsafe : entered.config.choiceMode = .safe := hentered.safe
    rw [hsafe]
    exact hlongest

/-- A left-recursive rule overflows in every context, by induction on the levels left. -/
theorem Parser.LeftRecursive.ref_overflows
    (hrule : rules rule = some (.choice location mode (earlier ++ left :: later)))
    (name : String) {ctx : Context V} (hctx : ctx.config.Confined mode bound) :
    ((Parser.ref name rule).body rules input).Overflows rules ctx := by
  obtain ⟨room, hroom⟩ : ∃ room, bound ≤ ctx.depth + room := ⟨bound, Nat.le_add_left ..⟩
  induction room generalizing name ctx with
  | zero =>
    refine .traced fun entered hgate => ?_
    exact absurd (Context.depth_lt_of_enter? hctx.toCapped hgate) (Nat.not_lt.2 hroom)
  | succ room ih =>
    refine .traced fun entered hgate => ?_
    rw [hrule]
    have hentered : entered.config.Confined mode bound := by rwa [Context.enter?_config hgate]
    refine .passed (hleft.choice_overflows hearlier hentered fun name ctx₁ hctx₁ hdeeper => ?_)
      fun f hf _ => .failWith hf
    refine ih name hctx₁ ?_
    rw [Context.enter?_depth hgate] at hdeeper
    omega

end

/-- An evaluation of a left-recursive rule under a limit on depth, by its name or by its
body, ends with an overflow, which is the one failure logged. -/
theorem Parser.LeftRecursive.evaluate {left : Parser V} (hleft : left.LeftRecursive rule)
    (hrule : rules rule = some (.choice location mode (earlier ++ left :: later)))
    (hearlier : ∀ p ∈ earlier, p.StandsAside rules tokens mode bound) {ctx : Context V}
    (hctx : ctx.config.Confined mode bound)
    (hp : p = .ref name rule ∨
      p = .ruleBody name (.choice location mode (earlier ++ left :: later))) :
    ∃ n f ended, Parser.evaluate rules n p tokens ctx = some (.error f, ended) ∧
      f.is .stackOverflow = true ∧ ended.depth = 0 ∧ ended.pos = 0 ∧ ended.failures = #[f] := by
  have hoverflow : (p.body rules tokens).Overflows rules ctx.reset := by
    rcases hp with rfl | rfl
    · exact hleft.ref_overflows hearlier hrule name hctx
    · refine .traced fun entered hgate => .passed ?_ fun f hf _ => .failWith hf
      have hentered : entered.config.Confined mode bound := Context.enter?_config hgate ▸ hctx
      exact hleft.choice_overflows hearlier hentered fun name ctx₁ hctx₁ _ =>
        hleft.ref_overflows hearlier hrule name hctx₁
  obtain ⟨f, ctx', es, hruns, hf, hlog⟩ := hoverflow
  obtain ⟨n, hrun⟩ := parses_iff_run.1 ⟨_, es, hruns, rfl⟩
  have hended := Parser.evaluate_of_error hrun
  rw [hlog] at hended
  exact ⟨n, f, _, hended, hf.overflow, hruns.depth, Nat.zero_min _, rfl⟩

theorem Leaf.tracedPlain_standsAside {read : Token V → Outcome V}
    (hread : ∀ t f, read t = .error f → f.isRecoverable = true) :
    (Leaf.tracedPlain label expected read).StandsAside rules input mode bound := by
  intro ctx hctx
  cases hgate : ctx.enter? label (firstPos input) with
  | error refusal =>
    obtain ⟨-, hrefusal⟩ := Context.enter?_error hgate
    have hparse : ∃ es, Parses rules (tracedPlain label expected read) input ctx
        (.error refusal) ctx es := ⟨_, _, .client (.refused hgate .done) .done, rfl⟩
    obtain ⟨n, hrun⟩ := parses_iff_run.1 hparse
    refine ⟨n, _, _, hrun, hctx, rfl, fun f hf => .inr ?_⟩
    cases hf
    rw [hrefusal]
    rfl
  | ok entered =>
    have hparse : ∃ es, Parses rules (tracedPlain label expected read) input ctx
        (onFirst expected "EOF" read input) (entered.leave label (firstPos input)
          entered.traces.size (onFirst expected "EOF" read input)) es :=
      ⟨_, _, .client (.guarded hgate .done .done) .done, rfl⟩
    obtain ⟨n, hrun⟩ := parses_iff_run.1 hparse
    refine ⟨n, _, _, hrun, ?_, ?_, fun f hf => .inl ?_⟩
    · rwa [Context.leave_config, Context.enter?_config hgate]
    · rw [Context.leave_failures, Context.enter?_failures hgate]
    · cases input with
      | nil => cases hf; rfl
      | cons t rest => exact hread t f hf

def leftTerms : Parser Int64 :=
  .oneOf "here" [Leaf.any,
    .transform "there" (.seq "sum" [.ref "terms" 0, Leaf.operator, Leaf.any]) (.done <| .ok ·)]

/-- At a limit of five it is a leaf before the sequence that is refused. -/
theorem leftTerms_evaluate : ∃ n f ended,
    Parser.evaluate (fun _ => some leftTerms) n (.ref "terms" 0) (Token.ofTexts ["x"])
      (.ofConfig { Config.initial with maxDepth := 5 }) = some (.error f, ended) ∧
    f.is .stackOverflow = true ∧ ended.depth = 0 ∧ ended.pos = 0 ∧ ended.failures = #[f] := by
  have hearlier : ∀ p ∈ [Leaf.any],
      p.StandsAside (fun _ => some leftTerms) (Token.ofTexts ["x"]) none 5 :=
    List.forall_mem_singleton.2 (Leaf.tracedPlain_standsAside fun t f hf => by cases hf)
  exact Parser.LeftRecursive.evaluate (.transform .seq) rfl hearlier
    ⟨⟨by decide, Nat.le_refl _⟩, rfl⟩ (.inl rfl)

-- ---------------------------------------------------------------------------
-- Without a limit
-- ---------------------------------------------------------------------------

structure Config.Unlimited (mode : Option ChoiceMode) (config : Config) : Prop where
  limit : config.maxDepth = 0
  safe : mode.getD config.choiceMode = .safe

omit [TokenValue V] in
theorem Config.Unlimited.not_atLimit {ctx : Context V} (h : ctx.config.Unlimited mode) :
    ¬ ctx.AtLimit := fun hlimit => Nat.ne_of_gt hlimit.1 h.limit

def Parser.GivesWay (rules : Rules V) (input : List (Token V)) (mode : Option ChoiceMode)
    (p : Parser V) : Prop :=
  ∀ ctx o ctx' es, ctx.config.Unlimited mode → Runs rules (p.body rules input) ctx o ctx' es →
    ctx'.config.Unlimited mode ∧ ∀ f, o = .error f → f.isRecoverable = true

def Parser.CallsUnlimited (input : List (Token V)) (mode : Option ChoiceMode) (rule : RuleId)
    (p : Parser V) (given : List (Token V)) (ctx : Context V) : Prop :=
  (∃ name, p = .ref name rule) ∧ given = input ∧ ctx.config.Unlimited mode

section
variable {input : List (Token V)} {mode : Option ChoiceMode}

theorem Parser.LeftRecursive.runsWithin {p : Parser V} (h : p.LeftRecursive rule)
    {ctx : Context V} (hctx : ctx.config.Unlimited mode)
    (hrun : Runs rules (p.body rules input) ctx o ctx' es) :
    RunsWithin rules (CallsUnlimited input mode rule) es.length := by
  induction h generalizing o ctx' es with
  | seq =>
    obtain ⟨entered, _, nested, hconfig, -, hregion, -, hsize⟩ :=
      Runs.of_traced_open hctx.not_atLimit hrun
    cases hregion with
    | clearPartials hregion =>
      obtain ⟨_, _, _, _, hparse, -, rfl⟩ := hregion.of_call
      exact ⟨_, _, { entered with partials := [] }, _, _, _, ⟨⟨_, rfl⟩, rfl, hconfig ▸ hctx⟩,
        hparse, Nat.lt_trans (Event.length_lt_span ..) hsize⟩
  | transform _ ih =>
    obtain ⟨_, _, _, _, hparse, -, rfl⟩ := Runs.of_call hrun
    exact (ih hparse).mono (Nat.le_of_lt (Event.length_lt_span ..))

variable {earlier later : List (Parser V)} {left : Parser V}
  (hleft : left.LeftRecursive rule) (hearlier : ∀ p ∈ earlier, p.GivesWay rules input mode)
include hleft hearlier

theorem Parser.LeftRecursive.longestFrom_runsWithin {best : Option (Match V)}
    {ctx : Context V} (hctx : ctx.config.Unlimited mode)
    (hrun : Runs rules (longestFrom input (earlier ++ left :: later) best failures)
      ctx o ctx' es) : RunsWithin rules (CallsUnlimited input mode rule) es.length := by
  induction earlier generalizing ctx best failures es with
  | nil =>
    obtain ⟨_, _, _, _, hparse, -, rfl⟩ := Runs.of_call hrun
    exact (hleft.runsWithin hctx hparse).mono (Nat.le_of_lt (Event.length_lt_span ..))
  | cons p earlier ih =>
    obtain ⟨hp, hrest⟩ := List.forall_mem_cons.1 hearlier
    obtain ⟨r, ctx₁, _, es₁, hparse, hnext, rfl⟩ := Runs.of_call hrun
    obtain ⟨hctx₁, hfails⟩ := hp _ _ _ _ hctx hparse
    have hwithin : RunsWithin rules (CallsUnlimited input mode rule) es₁.length := by
      cases r with
      | ok m => exact ih hrest hctx₁ hnext
      | error f =>
        simp only [hfails f rfl, if_true] at hnext
        exact ih hrest hctx₁ hnext
    exact hwithin.mono (by simp)

theorem Parser.LeftRecursive.choice_runsWithin {ctx : Context V}
    (hctx : ctx.config.Unlimited mode)
    (hrun : Runs rules ((choice location mode (earlier ++ left :: later)).body rules input)
      ctx o ctx' es) : RunsWithin rules (CallsUnlimited input mode rule) es.length := by
  obtain ⟨entered, _, nested, hconfig, -, hregion, -, hsize⟩ :=
    Runs.of_traced_open hctx.not_atLimit hrun
  have hentered : entered.config.Unlimited mode := hconfig ▸ hctx
  refine RunsWithin.mono ?_ (Nat.le_of_lt hsize)
  cases mode with
  | some mode =>
    obtain rfl : mode = .safe := hctx.safe
    exact hleft.longestFrom_runsWithin hearlier hentered hregion
  | none =>
    cases hregion with
    | askMode hregion =>
      have hsafe : entered.config.choiceMode = .safe := hentered.safe
      rw [hsafe] at hregion
      exact hleft.longestFrom_runsWithin hearlier hentered hregion

variable {location : String}
  (hrule : rules rule = some (.choice location mode (earlier ++ left :: later)))
include hrule

theorem Parser.LeftRecursive.recurs : Recurs rules (CallsUnlimited input mode rule) := by
  rintro _ _ ctx o ctx' es ⟨⟨name, rfl⟩, rfl, hctx⟩ hrun
  obtain ⟨entered, _, _, hconfig, -, hchoice, hsize⟩ :=
    Runs.of_ref_open hctx.not_atLimit hrule hrun
  have hentered : entered.config.Unlimited mode := hconfig ▸ hctx
  exact (hleft.choice_runsWithin hearlier hentered hchoice).mono (Nat.le_of_lt hsize)

/-- Where no limit on depth is set a left-recursive rule never ends. -/
theorem Parser.LeftRecursive.run_unlimited {ctx : Context V} (hctx : ctx.config.Unlimited mode)
    (n : Nat) : Parser.run rules n (.ref name rule) input ctx = none :=
  (hleft.recurs hearlier hrule).run_eq_none ⟨⟨name, rfl⟩, rfl, hctx⟩ n

end

def reconfigured (mode : Option ChoiceMode) (change : Config → Config) : Parser Int64 :=
  .choice "here" mode [Leaf.configuring change, .seq "sum" [.ref "sum" 0]]

/-- A leaf that changes the options always matches and logs nothing. Where the alternation
follows the mode and the leaf sets it, the leaf is the first match and counts; and where
the leaf lifts the limit, nothing ends the parse. -/
theorem reconfigured_evaluate :
    (∀ change rules input (ctx : Context Int64), ∃ ctx',
      Parser.run rules 1 (Leaf.configuring change) input ctx = some (.ok .nothing, ctx') ∧
        ctx'.failures = ctx.failures) ∧
    (∃ ended, Parser.evaluate (fun _ => some (reconfigured none ({ · with choiceMode := .fast })))
      20 (.ref "sum" 0) (Token.ofTexts ["x"]) (.ofConfig { Config.initial with maxDepth := 5 }) =
        some (.ok [], ended)) ∧
    ∀ n, Parser.evaluate (fun _ => some (reconfigured (some .safe) ({ · with maxDepth := 0 })))
      n (.ref "sum" 0) (Token.ofTexts ["x"]) (.ofConfig { Config.initial with maxDepth := 5 }) =
        none := by
  refine ⟨fun change rules input ctx => ⟨_, rfl, rfl⟩, ?_, fun n => ?_⟩
  · have hanswer : (Parser.evaluate
        (fun _ => some (reconfigured none ({ · with choiceMode := .fast }))) 20 (.ref "sum" 0)
        (Token.ofTexts ["x"]) (.ofConfig { Config.initial with maxDepth := 5 })).map
          (·.1.toOption) = some (some []) := by decide +kernel
    obtain ⟨⟨answer, ended⟩, hended, hok⟩ := Option.map_eq_some_iff.1 hanswer
    cases answer with
    | error f => cases hok
    | ok values => cases hok; exact ⟨ended, hended⟩
  · rw [Option.eq_none_iff_forall_ne_some]
    rintro ⟨answer, ended⟩ hended
    obtain ⟨o, ctx', hrun, -, -⟩ := Parser.evaluate_eq_some_iff.1 hended
    obtain ⟨es, h⟩ := runs_of_run hrun
    have hearlier : ∀ p ∈ [Leaf.configuring ({ · with maxDepth := 0 })],
        p.GivesWay (fun _ => some (reconfigured (some .safe) ({ · with maxDepth := 0 })))
          (Token.ofTexts ["x"]) (some .safe) := by
      refine List.forall_mem_singleton.2 fun _ _ _ _ _ hleaf => ?_
      obtain ⟨rfl, rfl⟩ := Leaf.runs_configuring hleaf
      exact ⟨⟨rfl, rfl⟩, fun _ hf => by cases hf⟩
    -- The guard lets in the rule and its alternation, in which the leaf comes first.
    obtain ⟨entered, _, _, hconfig, hdepth, hchoice, -⟩ :=
      Runs.of_ref_open (show ¬ Context.AtLimit _ from fun hlimit => by cases hlimit.2) rfl h
    have hopen : ¬ entered.AtLimit := by
      rw [Context.AtLimit, hconfig, hdepth]
      decide
    obtain ⟨entered₁, _, _, -, -, hlongest, -⟩ := Runs.of_traced_open hopen hchoice
    obtain ⟨_, _, _, _, hleaf, hrest, -⟩ := Runs.of_call hlongest
    obtain ⟨rfl, rfl⟩ := Leaf.runs_configuring hleaf
    have hunlimited : (entered₁.configure ({ · with maxDepth := 0 })).config.Unlimited
        (some .safe) := ⟨rfl, rfl⟩
    have hwithin := Parser.LeftRecursive.longestFrom_runsWithin .seq (List.forall_mem_nil _)
      hunlimited hrest
    exact (Parser.LeftRecursive.recurs .seq hearlier rfl).not_runsWithin hwithin

end TokenGrammar
