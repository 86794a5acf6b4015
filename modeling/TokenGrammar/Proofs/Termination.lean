import TokenGrammar.Proofs.Frame

/-!
# A limit on depth makes every parse end

A parser either calls the parsers it is built from, which are smaller, or goes
through the depth guard first. Under a limit the guard refuses at last, so that a
parse ends by induction on the levels left, and at one level on the parser
(`Grammar.ends_of_limit`). The code of the grammar's author is an action and has no
loop of its own. It may change the options as long as they stay `Limited`: code that
lifts the limit, or that switches checks on within the check of a conversion, takes
the guard away from a rule that calls itself.
-/

namespace TokenGrammar

open TokenGrammar.Action (traced)

namespace Config

structure Limited (bound : Nat) (checks : Bool) (config : Config) : Prop where
  limit : 0 < config.maxDepth
  bound : config.maxDepth ≤ bound
  checks : config.checkTransforms = true → checks = true

/-- Whether a change of options leaves a limit, not above `bound`, and switches no
checks of conversions on. -/
def KeepsLimit (bound : Nat) (change : Config → Config) : Prop :=
  ∀ checks config, config.Limited bound checks → (change config).Limited bound checks

end Config

variable {V : Type} [TokenValue V]

def Action.Ends (rules : Rules V) (a : Action (Parser V) V α) (ctx : Context V) : Prop :=
  ∃ x ctx' es, Runs rules a ctx x ctx' es

structure Context.At (ctx : Context V) (bound : Nat) (checks : Bool) (depth : Nat) : Prop where
  config : ctx.config.Limited bound checks
  depth : ctx.depth = depth

def Parser.EndsAt (rules : Rules V) (bound : Nat) (checks : Bool) (depth : Nat) (p : Parser V) :
    Prop :=
  ∀ input ctx, ctx.At bound checks depth → (p.body rules input).Ends rules ctx

/-- A level of depth at which all that is done elsewhere ends: the checks of
conversions, and what is behind the guard. -/
structure Grammar.Level (G : Grammar V) (bound : Nat) (checks : Bool) (depth : Nat) : Prop where
  clients : ∀ p ∈ G, p.Clients (·.Changes (Config.KeepsLimit bound))
  scratch : checks = true → ∀ p ∈ G, p.EndsAt G.rules bound false 0
  below : depth < bound → ∀ deeper > depth, ∀ p ∈ G, p.EndsAt G.rules bound checks deeper

variable {G : Grammar V} {bound : Nat} {checks : Bool}

theorem Runs.limited (hclients : ∀ p ∈ G, p.Clients (·.Changes (Config.KeepsLimit bound)))
    (h : Runs G.rules a ctx x ctx' es) (ha : a.Only (fun _ => True) (· ∈ G))
    (hchanges : a.Changes (Config.KeepsLimit bound)) (hctx : ctx.config.Limited bound checks) :
    ctx'.config.Limited bound checks := by
  have hkeep : ∀ {β} {b : Action (Parser V) V β}, b.Changes (Config.KeepsLimit bound) →
      b.Changes fun change => ∀ config, config.Limited bound checks →
        (change config).Limited bound checks :=
    fun hb => hb.mono fun _ hchange => hchange checks
  exact h.options (fun p hp => (hclients p hp).mono fun _ => hkeep) ha (hkeep hchanges) hctx

theorem Grammar.Level.changes (h : G.Level bound checks depth) (hp : p ∈ G)
    (input : List (Token V)) : (p.body G.rules input).Changes (Config.KeepsLimit bound) :=
  Parser.body_changes (h.clients p hp) input

theorem Grammar.Level.entered {ctx entered : Context V} (h : G.Level bound checks depth)
    (hgate : ctx.enter? name place = .ok entered) (hctx : ctx.At bound checks depth) :
    entered.At bound checks (depth + 1) ∧ G.Level bound checks (depth + 1) ∧
      ∀ p ∈ G, p.EndsAt G.rules bound checks (depth + 1) := by
  have hbelow : depth < bound := by
    have hopen : ¬ (0 < ctx.config.maxDepth ∧ ctx.config.maxDepth ≤ ctx.depth) :=
      (Context.enter?_ok hgate).1
    have hlimit := hctx.config.limit
    have hbound := hctx.config.bound
    rw [← hctx.depth]
    omega
  refine ⟨⟨?_, ?_⟩, ⟨h.clients, h.scratch, ?_⟩, ?_⟩
  · rw [Context.enter?_config hgate]
    exact hctx.config
  · rw [Context.enter?_depth hgate, hctx.depth]
  · exact fun _ deeper hdeeper => h.below hbelow deeper (Nat.lt_of_succ_lt hdeeper)
  · exact h.below hbelow _ (Nat.lt_succ_self _)

theorem Grammar.Level.after {ctx : Context V} (h : G.Level bound checks depth)
    (hrun : Runs G.rules a ctx x ctx' es) (ha : a.Only (fun _ => True) (· ∈ G))
    (hchanges : a.Changes (Config.KeepsLimit bound)) (hctx : ctx.At bound checks depth) :
    ctx'.At bound checks depth :=
  ⟨hrun.limited h.clients ha hchanges hctx.config, hrun.depth.trans hctx.depth⟩

-- ---------------------------------------------------------------------------
-- One level
-- ---------------------------------------------------------------------------

theorem Action.ends_of_calls (h : G.Level bound checks depth) {a : Action (Parser V) V α}
    (ha : a.Only (fun _ => True) fun p => p ∈ G ∧ p.EndsAt G.rules bound checks depth)
    (hchanges : a.Changes (Config.KeepsLimit bound)) (hctx : ctx.At bound checks depth) :
    a.Ends G.rules ctx := by
  induction a generalizing ctx depth with
  | done answer => exact ⟨_, _, _, .done⟩
  | call p input next ih =>
    obtain ⟨⟨hp, hends⟩, hnext⟩ := ha
    obtain ⟨o, ctx₁, _, hparse⟩ := hends input ctx hctx
    have hctx₁ := h.after hparse (Grammar.calls_only hp input) (h.changes hp input) hctx
    obtain ⟨_, _, _, hrest⟩ := ih o h (hnext o) (hchanges o) hctx₁
    exact ⟨_, _, _, .call hparse hrest⟩
  | guarded name input region next ihRegion ih =>
    obtain ⟨hregion, hnext⟩ := ha
    cases hgate : ctx.enter? name (firstPos input) with
    | error refusal =>
      obtain ⟨_, _, _, hrest⟩ := ih _ h (hnext _) (hchanges.2 _) hctx
      exact ⟨_, _, _, .refused hgate hrest⟩
    | ok entered =>
      obtain ⟨hentered, hdeeper, hcalls⟩ := h.entered hgate hctx
      obtain ⟨o, ctx₁, _, hinside⟩ := ihRegion hdeeper
        (hregion.mono (fun _ he => he) fun p hp => ⟨hp.1, hcalls p hp.1⟩) hchanges.1 hentered
      have hctx₁ := hdeeper.after hinside
        (hregion.mono (fun _ he => he) fun _ hp => hp.1) hchanges.1 hentered
      have hleft : (ctx₁.leave name (firstPos input) entered.traces.size o).At bound checks depth :=
        ⟨by rw [Context.leave_config]; exact hctx₁.config,
          by rw [Context.leave_depth, hctx₁.depth, Nat.add_sub_cancel]⟩
      obtain ⟨_, _, _, hrest⟩ := ih o h (hnext o) (hchanges.2 o) hleft
      exact ⟨_, _, _, .guarded hgate hinside hrest⟩
  | client code next ihCode ih =>
    obtain ⟨hcode, hnext⟩ := ha
    obtain ⟨r, ctx₁, _, hinside⟩ := ihCode h hcode hchanges.1 hctx
    have hctx₁ := h.after hinside (hcode.mono (fun _ he => he) fun _ hp => hp.1) hchanges.1 hctx
    obtain ⟨_, _, _, hrest⟩ := ih r h (hnext r) (hchanges.2 r) hctx₁
    exact ⟨_, _, _, .client hinside hrest⟩
  | askMode next ih =>
    obtain ⟨_, _, _, hrest⟩ := ih _ h (ha.2 _) (hchanges _) hctx
    exact ⟨_, _, _, .askMode hrest⟩
  | logFailure failure fallback next ih =>
    have hlogged : (ctx.logFailure failure fallback).At bound checks depth :=
      ⟨hctx.config, hctx.depth⟩
    obtain ⟨_, _, _, hrest⟩ := ih h ha.2 hchanges hlogged
    exact ⟨_, _, _, .logFailure hrest⟩
  | report diagnostic next ih =>
    have hreported : (ctx.report diagnostic).At bound checks depth := ⟨hctx.config, hctx.depth⟩
    obtain ⟨_, _, _, hrest⟩ := ih h ha.2 hchanges hreported
    exact ⟨_, _, _, .report hrest⟩
  | clearPartials next ih =>
    have hcleared : { ctx with partials := [] }.At bound checks depth :=
      ⟨hctx.config, hctx.depth⟩
    obtain ⟨_, _, _, hrest⟩ := ih h ha.2 hchanges hcleared
    exact ⟨_, _, _, .clearPartials hrest⟩
  | keepPartials produced next ih =>
    have hkept : { ctx with partials := produced ++ ctx.partials }.At bound checks depth :=
      ⟨hctx.config, hctx.depth⟩
    obtain ⟨_, _, _, hrest⟩ := ih h ha.2 hchanges hkept
    exact ⟨_, _, _, .keepPartials hrest⟩
  | checkReproduction p location converted next ih =>
    obtain ⟨-, ⟨hp, -⟩, hnext⟩ := ha
    by_cases hchecks : ctx.Checks converted
    · have hon : ctx.config.checkTransforms = true := by
        simp_all [Context.Checks, Context.checksTransforms]
      obtain ⟨o, _, _, hparse⟩ := h.scratch (hctx.config.checks hon) p hp converted ctx.scratch
        ⟨⟨hctx.config.limit, hctx.config.bound, nofun⟩, rfl⟩
      have hchecked : (ctx.afterCheck location converted o).At bound checks depth :=
        ⟨by rw [Context.afterCheck_config]; exact hctx.config,
          by rw [Context.afterCheck_depth, hctx.depth]⟩
      obtain ⟨_, _, _, hrest⟩ := ih h hnext hchanges hchecked
      exact ⟨_, _, _, .checked hchecks hparse hrest⟩
    · obtain ⟨_, _, _, hrest⟩ := ih h hnext hchanges hctx
      exact ⟨_, _, _, .unchecked hchecks hrest⟩
  | configure change next ih =>
    have hchanged : (ctx.configure change).At bound checks depth :=
      ⟨hchanges.1 checks _ hctx.config, hctx.depth⟩
    obtain ⟨_, _, _, hrest⟩ := ih h ha.2 hchanges.2 hchanged
    exact ⟨_, _, _, .configure hrest⟩

/-- A region behind the guard ends, whatever it calls. -/
theorem Action.ends_of_guarded (h : G.Level bound checks depth) {region : Parser.Step V}
    (ha : (traced name input region).Only (fun _ => True) (· ∈ G))
    (hchanges : (traced name input region).Changes (Config.KeepsLimit bound))
    (hctx : ctx.At bound checks depth) :
    (traced name input region).Ends G.rules ctx := by
  cases hgate : ctx.enter? name (firstPos input) with
  | error refusal => exact ⟨_, _, _, .refused hgate .done⟩
  | ok entered =>
    obtain ⟨hentered, hdeeper, hcalls⟩ := h.entered hgate hctx
    obtain ⟨_, _, _, hinside⟩ := Action.ends_of_calls hdeeper
      (ha.1.mono (fun _ he => he) fun p hp => ⟨hp, hcalls p hp⟩) hchanges.1 hentered
    exact ⟨_, _, _, .guarded hgate hinside .done⟩

mutual

/-- A parser ends by its structure, as what it does behind the guard ends anyway. -/
theorem Parser.endsAt (h : G.Level bound checks depth) :
    (p : Parser V) → p ∈ G → p.EndsAt G.rules bound checks depth
  | .leaf program, hp, input, ctx, hctx => by
    have hcode := Action.only_endsAt h (program input) (Grammar.calls_only hp input).1
    exact Action.ends_of_calls h ⟨hcode, fun _ => trivial⟩ (h.changes hp input) hctx
  | .transform location item convert, hp, input, ctx, hctx => by
    have ha := Grammar.calls_only hp input
    have hitem := Parser.endsAt h item ha.1
    refine Action.ends_of_calls h ⟨⟨ha.1, hitem⟩, fun o => ?_⟩ (h.changes hp input) hctx
    cases o with
    | error failure => trivial
    | ok m =>
      refine ⟨Action.only_endsAt h (convert m.produced) (ha.2 (.ok m)).1, fun r => ?_⟩
      cases r with
      | error failure => trivial
      | ok converted => exact ⟨trivial, ⟨ha.1, hitem⟩, trivial⟩
  | .labelled label item, hp, input, ctx, hctx => by
    have ha := Grammar.calls_only hp input
    have hitem := Parser.endsAt h item ha.1
    refine Action.ends_of_calls h ⟨⟨ha.1, hitem⟩, fun o => ?_⟩ (h.changes hp input) hctx
    cases o <;> trivial
  | .empty none, _, _, _, _ | .expected _, _, _, _, _ | .fail _, _, _, _, _ =>
    ⟨_, _, _, .done⟩
  | .seq .., hp, input, _, hctx | .choice .., hp, input, _, hctx
  | .repetition .., hp, input, _, hctx | .optional _, hp, input, _, hctx
  | .before _, hp, input, _, hctx | .empty (some _), hp, input, _, hctx
  | .atEnd, hp, input, _, hctx | .recover .., hp, input, _, hctx
  | .lookahead _, hp, input, _, hctx | .notFollowedBy _, hp, input, _, hctx
  | .peek _, hp, input, _, hctx | .trace .., hp, input, _, hctx | .ref .., hp, input, _, hctx
  | .deferred _, hp, input, _, hctx =>
    Action.ends_of_guarded h (Grammar.calls_only hp input) (h.changes hp input) hctx

theorem Action.only_endsAt (h : G.Level bound checks depth) :
    {α : Type} → (a : Action (Parser V) V α) → a.Only (fun _ => True) (· ∈ G) →
      a.Only (fun _ => True) fun p => p ∈ G ∧ p.EndsAt G.rules bound checks depth
  | _, .done _, _ => trivial
  | _, .call p _ next, ha =>
    ⟨⟨ha.1, Parser.endsAt h p ha.1⟩, fun o => Action.only_endsAt h (next o) (ha.2 o)⟩
  | _, .guarded _ _ region next, ha =>
    ⟨Action.only_endsAt h region ha.1, fun o => Action.only_endsAt h (next o) (ha.2 o)⟩
  | _, .client code next, ha =>
    ⟨Action.only_endsAt h code ha.1, fun r => Action.only_endsAt h (next r) (ha.2 r)⟩
  | _, .askMode next, ha => ⟨ha.1, fun mode => Action.only_endsAt h (next mode) (ha.2 mode)⟩
  | _, .logFailure _ _ next, ha => ⟨ha.1, Action.only_endsAt h next ha.2⟩
  | _, .report _ next, ha => ⟨ha.1, Action.only_endsAt h next ha.2⟩
  | _, .clearPartials next, ha => ⟨ha.1, Action.only_endsAt h next ha.2⟩
  | _, .keepPartials _ next, ha => ⟨ha.1, Action.only_endsAt h next ha.2⟩
  | _, .checkReproduction p _ _ next, ha =>
    ⟨ha.1, ⟨ha.2.1, Parser.endsAt h p ha.2.1⟩, Action.only_endsAt h next ha.2.2⟩
  | _, .configure _ next, ha => ⟨ha.1, Action.only_endsAt h next ha.2⟩

end

-- ---------------------------------------------------------------------------
-- All levels
-- ---------------------------------------------------------------------------

/-- Under a limit the parsers of the grammar end, by induction on the levels left. -/
theorem Grammar.endsAt_of_limit
    (hclients : ∀ p ∈ G, p.Clients (·.Changes (Config.KeepsLimit bound)))
    (hscratch : checks = true → ∀ p ∈ G, p.EndsAt G.rules bound false 0) (hp : p ∈ G) :
    p.EndsAt G.rules bound checks depth := by
  have hlevels : ∀ levels depth, bound ≤ depth + levels →
      ∀ p ∈ G, p.EndsAt G.rules bound checks depth := by
    intro levels
    induction levels with
    | zero =>
      intro depth hleft p hp
      have hnone : G.Level bound checks depth :=
        ⟨hclients, hscratch, fun hbelow => absurd hleft (Nat.not_le.2 hbelow)⟩
      exact Parser.endsAt hnone p hp
    | succ levels ih =>
      intro depth hleft p hp
      have hlevel : G.Level bound checks depth :=
        ⟨hclients, hscratch, fun _ deeper hdeeper => ih deeper (by omega)⟩
      exact Parser.endsAt hlevel p hp
  exact hlevels bound depth (Nat.le_add_left _ _) p hp

theorem Grammar.action_ends
    (hclients : ∀ p ∈ G, p.Clients (·.Changes (Config.KeepsLimit bound)))
    {a : Action (Parser V) V α} (ha : a.Only (fun _ => True) (· ∈ G))
    (hchanges : a.Changes (Config.KeepsLimit bound)) (hlimit : ctx.config.Limited bound true) :
    a.Ends G.rules ctx := by
  -- The parse that checks a conversion has no further checks.
  have hscratch : ∀ p ∈ G, p.EndsAt G.rules bound false 0 :=
    fun p hp => Grammar.endsAt_of_limit hclients nofun hp
  have hends : ∀ {depth}, ∀ p ∈ G, p.EndsAt G.rules bound true depth :=
    fun p hp => Grammar.endsAt_of_limit hclients (fun _ => hscratch) hp
  have hlevel : G.Level bound true ctx.depth :=
    ⟨hclients, fun _ => hscratch, fun _ _ _ => hends⟩
  exact Action.ends_of_calls hlevel (ha.mono (fun _ he => he) fun p hp => ⟨hp, hends p hp⟩)
    hchanges ⟨hlimit, rfl⟩

theorem Grammar.ends_of_limit (hclients : ∀ p ∈ G, p.Clients Action.KeepsOptions)
    (hp : p ∈ G) (input : List (Token V)) (hlimit : 0 < ctx.config.maxDepth) :
    ∃ o ctx' es, Parses G.rules p input ctx o ctx' es := by
  have hkeep : ∀ p ∈ G, p.Clients (·.Changes (Config.KeepsLimit ctx.config.maxDepth)) :=
    fun p hp => (hclients p hp).mono fun _ hcode => hcode.changes (by simp)
  obtain ⟨o, ctx', es, h⟩ := Grammar.action_ends (a := Action.parse p input) hkeep
    ⟨hp, fun _ => trivial⟩ (fun _ => trivial) ⟨hlimit, Nat.le_refl _, fun _ => rfl⟩
  exact ⟨o, ctx', es, parses_iff.1 h⟩

end TokenGrammar
