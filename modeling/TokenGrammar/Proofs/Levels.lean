import Mathlib.Algebra.GroupWithZero.Nat
import TokenGrammar.Leaf
import TokenGrammar.Proofs.Frame
import TokenGrammar.Proofs.Progress

/-!
# How many traced parsers are in progress

A run that has come to some point has regions behind the guard that it is still inside
of, and may be inside the check of a conversion, which has a context and so a depth of its
own. `InProgress` counts them, context by context. Under a limit each context has no more
of them than the limit allows from where it started (`InProgress.own_le`), and since a
check does not start further checks there are at most two contexts
(`InProgress.checks_length_le`). The counts do not know of one another: a conversion that
is reached at some depth is checked with the whole limit again.
-/

namespace TokenGrammar

variable {V : Type} [TokenValue V]

/-- A run begins with the events `es` and is then inside `own` regions of its own context,
and in the contexts of the checks that it is inside of, outermost first, inside `checks`. -/
inductive InProgress (rules : Rules V) : {α : Type} → Action (Parser V) V α → Context V →
    List (Event V) → (own : Nat) → (checks : List Nat) → Prop
  | stopped : InProgress rules a ctx [] 0 []
  | calling (parse : InProgress rules (p.body rules input) ctx nested own checks) :
      InProgress rules (.call p input next) ctx (.started p input :: nested) own checks
  | called (parse : Runs rules (p.body rules input) ctx o ctx₁ nested)
      (rest : InProgress rules (next o) ctx₁ es own checks) :
      InProgress rules (.call p input next) ctx (Event.span p input o nested ++ es) own checks
  | refused (gate : ctx.enter? name (firstPos input) = .error refusal)
      (rest : InProgress rules (next (.error refusal)) ctx es own checks) :
      InProgress rules (.guarded name input region next) ctx (.refused refusal :: es) own checks
  | entering (gate : ctx.enter? name (firstPos input) = .ok entered)
      (inside : InProgress rules region entered nested own checks) :
      InProgress rules (.guarded name input region next) ctx (.entered entered.depth :: nested)
        (own + 1) checks
  | guarded (gate : ctx.enter? name (firstPos input) = .ok entered)
      (inside : Runs rules region entered o ctx₁ nested)
      (rest : InProgress rules (next o)
        (ctx₁.leave name (firstPos input) entered.traces.size o) es own checks) :
      InProgress rules (.guarded name input region next) ctx
        (.entered entered.depth :: (nested ++ es)) own checks
  | invoking (inside : InProgress rules code ctx nested own checks) :
      InProgress rules (.client code next) ctx (.invoked :: nested.map .within) own checks
  | client (inside : Runs rules code ctx result ctx₁ nested)
      (rest : InProgress rules (next result) ctx₁ es own checks) :
      InProgress rules (.client code next) ctx
        (.invoked :: (nested.map .within ++ .answered (Event.failure? result) :: es)) own checks
  | askMode (rest : InProgress rules (next ctx.config.choiceMode) ctx es own checks) :
      InProgress rules (.askMode next) ctx es own checks
  | logFailure {failure : Failure}
      (rest : InProgress rules next (ctx.logFailure failure fallback) es own checks) :
      InProgress rules (.logFailure failure fallback next) ctx
        (.logged (failure.orAt fallback) :: es) own checks
  | report (rest : InProgress rules next (ctx.report diagnostic) es own checks) :
      InProgress rules (.report diagnostic next) ctx (.reported diagnostic :: es) own checks
  | clearPartials (rest : InProgress rules next { ctx with partials := [] } es own checks) :
      InProgress rules (.clearPartials next) ctx es own checks
  | keepPartials
      (rest : InProgress rules next { ctx with partials := produced ++ ctx.partials }
        es own checks) :
      InProgress rules (.keepPartials produced next) ctx es own checks
  | unchecked (off : ¬ ctx.Checks converted) (rest : InProgress rules next ctx es own checks) :
      InProgress rules (.checkReproduction p location converted next) ctx es own checks
  | checking (on : ctx.Checks converted)
      (parse : InProgress rules (Action.parse p converted) ctx.scratch nested own checks) :
      InProgress rules (.checkReproduction p location converted next) ctx (nested.map .scratch)
        0 (own :: checks)
  | checked (on : ctx.Checks converted)
      (parse : Runs rules (p.body rules converted) ctx.scratch o scratch nested)
      (rest : InProgress rules next (ctx.afterCheck location converted o) es own checks) :
      InProgress rules (.checkReproduction p location converted next) ctx
        ((Event.span p converted o nested).map .scratch ++ Event.ofCheck location converted o ++ es)
        own checks
  | configure (rest : InProgress rules next (ctx.configure change) es own checks) :
      InProgress rules (.configure change next) ctx es own checks

variable {rules : Rules V}

/-- The counts belong to a beginning of a run, and each beginning has them. -/
theorem begins_iff_inProgress :
    Begins rules a ctx es ↔ ∃ own checks, InProgress rules a ctx es own checks := by
  constructor
  · intro h
    induction h with
    | stopped => exact ⟨_, _, .stopped⟩
    | calling _ ih => obtain ⟨_, _, ih⟩ := ih; exact ⟨_, _, .calling ih⟩
    | called parse _ ih => obtain ⟨_, _, ih⟩ := ih; exact ⟨_, _, .called parse ih⟩
    | refused gate _ ih => obtain ⟨_, _, ih⟩ := ih; exact ⟨_, _, .refused gate ih⟩
    | entering gate _ ih => obtain ⟨_, _, ih⟩ := ih; exact ⟨_, _, .entering gate ih⟩
    | guarded gate inside _ ih => obtain ⟨_, _, ih⟩ := ih; exact ⟨_, _, .guarded gate inside ih⟩
    | invoking _ ih => obtain ⟨_, _, ih⟩ := ih; exact ⟨_, _, .invoking ih⟩
    | client inside _ ih => obtain ⟨_, _, ih⟩ := ih; exact ⟨_, _, .client inside ih⟩
    | askMode _ ih => obtain ⟨_, _, ih⟩ := ih; exact ⟨_, _, .askMode ih⟩
    | logFailure _ ih => obtain ⟨_, _, ih⟩ := ih; exact ⟨_, _, .logFailure ih⟩
    | report _ ih => obtain ⟨_, _, ih⟩ := ih; exact ⟨_, _, .report ih⟩
    | clearPartials _ ih => obtain ⟨_, _, ih⟩ := ih; exact ⟨_, _, .clearPartials ih⟩
    | keepPartials _ ih => obtain ⟨_, _, ih⟩ := ih; exact ⟨_, _, .keepPartials ih⟩
    | unchecked off _ ih => obtain ⟨_, _, ih⟩ := ih; exact ⟨_, _, .unchecked off ih⟩
    | checking on _ ih => obtain ⟨_, _, ih⟩ := ih; exact ⟨_, _, .checking on ih⟩
    | checked on parse _ ih => obtain ⟨_, _, ih⟩ := ih; exact ⟨_, _, .checked on parse ih⟩
    | configure _ ih => obtain ⟨_, _, ih⟩ := ih; exact ⟨_, _, .configure ih⟩
  · rintro ⟨own, checks, h⟩
    induction h with
    | stopped => exact .stopped
    | calling _ ih => exact .calling ih
    | called parse _ ih => exact .called parse ih
    | refused gate _ ih => exact .refused gate ih
    | entering gate _ ih => exact .entering gate ih
    | guarded gate inside _ ih => exact .guarded gate inside ih
    | invoking _ ih => exact .invoking ih
    | client inside _ ih => exact .client inside ih
    | askMode _ ih => exact .askMode ih
    | logFailure _ ih => exact .logFailure ih
    | report _ ih => exact .report ih
    | clearPartials _ ih => exact .clearPartials ih
    | keepPartials _ ih => exact .keepPartials ih
    | unchecked off _ ih => exact .unchecked off ih
    | checking on _ ih => exact .checking on ih
    | checked on parse _ ih => exact .checked on parse ih
    | configure _ ih => exact .configure ih

-- ---------------------------------------------------------------------------
-- Under a limit
-- ---------------------------------------------------------------------------

variable {G : Grammar V}

theorem InProgress.own_le
    (hclients : ∀ p ∈ G, p.Clients
      (·.Changes fun change => ∀ config, config.Capped bound → (change config).Capped bound))
    (h : InProgress G.rules a ctx es own checks) (ha : a.Only (fun _ => True) (· ∈ G))
    (hchanges : a.Changes
      fun change => ∀ config, config.Capped bound → (change config).Capped bound)
    (hctx : ctx.config.Capped bound) :
    own ≤ bound - ctx.depth ∧ ∀ r ∈ checks, r ≤ bound := by
  have hbody : ∀ {p}, p ∈ G → ∀ input, (p.body G.rules input).Changes fun change =>
      ∀ config, config.Capped bound → (change config).Capped bound :=
    fun hp input => Parser.body_changes (hclients _ hp) input
  induction h with
  | stopped => exact ⟨Nat.zero_le _, nofun⟩
  | calling _ ih => exact ih (Grammar.calls_only ha.1 _) (hbody ha.1 _) hctx
  | called parse _ ih =>
    rw [← parse.depth]
    exact ih (ha.2 _) (hchanges _)
      (parse.options hclients (Grammar.calls_only ha.1 _) (hbody ha.1 _) hctx)
  | refused _ _ ih => exact ih (ha.2 _) (hchanges.2 _) hctx
  | entering gate _ ih =>
    obtain ⟨hown, hchecks⟩ := ih ha.1 hchanges.1 (Context.enter?_config gate ▸ hctx)
    have hdepth := Context.depth_lt_of_enter? hctx gate
    rw [Context.enter?_depth gate] at hown
    exact ⟨by omega, hchecks⟩
  | guarded gate inside _ ih =>
    have hinside := inside.options hclients ha.1 hchanges.1 (Context.enter?_config gate ▸ hctx)
    have hrest := ih (ha.2 _) (hchanges.2 _) (by rwa [Context.leave_config])
    rwa [Context.leave_depth, inside.depth, Context.enter?_depth gate, Nat.add_sub_cancel] at hrest
  | invoking _ ih => exact ih ha.1 hchanges.1 hctx
  | client inside _ ih =>
    rw [← inside.depth]
    exact ih (ha.2 _) (hchanges.2 _) (inside.options hclients ha.1 hchanges.1 hctx)
  | askMode _ ih => exact ih (ha.2 _) (hchanges _) hctx
  | logFailure _ ih | report _ ih | clearPartials _ ih | keepPartials _ ih =>
    exact ih ha.2 hchanges hctx
  | unchecked _ _ ih => exact ih ha.2.2 hchanges hctx
  | checking _ _ ih =>
    obtain ⟨hown, hchecks⟩ :=
      ih ⟨ha.2.1, fun _ => trivial⟩ (fun _ => trivial) ⟨hctx.limit, hctx.bound⟩
    exact ⟨Nat.zero_le _, List.forall_mem_cons.2 ⟨hown, hchecks⟩⟩
  | checked _ _ _ ih =>
    have hrest := ih ha.2.2 hchanges (by rwa [Context.afterCheck_config])
    rwa [Context.afterCheck_depth] at hrest
  | configure _ ih => exact ih ha.2 hchanges.2 (hchanges.1 _ hctx)

theorem InProgress.checks_length_le
    (hclients : ∀ p ∈ G, p.Clients (·.Changes fun change => ∀ config,
      config.checkTransforms = false → (change config).checkTransforms = false))
    (h : InProgress G.rules a ctx es own checks) (ha : a.Only (fun _ => True) (· ∈ G))
    (hchanges : a.Changes fun change => ∀ config,
      config.checkTransforms = false → (change config).checkTransforms = false) :
    checks.length ≤ 1 ∧ (ctx.config.checkTransforms = false → checks = []) := by
  have hbody : ∀ {p}, p ∈ G → ∀ input, (p.body G.rules input).Changes fun change =>
      ∀ config, config.checkTransforms = false → (change config).checkTransforms = false :=
    fun hp input => Parser.body_changes (hclients _ hp) input
  induction h with
  | stopped => exact ⟨Nat.zero_le _, fun _ => rfl⟩
  | calling _ ih => exact ih (Grammar.calls_only ha.1 _) (hbody ha.1 _)
  | called parse _ ih =>
    obtain ⟨hlength, hnone⟩ := ih (ha.2 _) (hchanges _)
    exact ⟨hlength, fun hoff => hnone
      (parse.options hclients (Grammar.calls_only ha.1 _) (hbody ha.1 _) hoff)⟩
  | refused _ _ ih => exact ih (ha.2 _) (hchanges.2 _)
  | entering gate _ ih => simpa only [Context.enter?_config gate] using ih ha.1 hchanges.1
  | guarded gate inside _ ih =>
    obtain ⟨hlength, hnone⟩ := ih (ha.2 _) (hchanges.2 _)
    rw [Context.leave_config] at hnone
    exact ⟨hlength, fun hoff => hnone
      (inside.options hclients ha.1 hchanges.1 (Context.enter?_config gate ▸ hoff))⟩
  | invoking _ ih => exact ih ha.1 hchanges.1
  | client inside _ ih =>
    obtain ⟨hlength, hnone⟩ := ih (ha.2 _) (hchanges.2 _)
    exact ⟨hlength, fun hoff => hnone (inside.options hclients ha.1 hchanges.1 hoff)⟩
  | askMode _ ih => exact ih (ha.2 _) (hchanges _)
  | logFailure _ ih | report _ ih | clearPartials _ ih | keepPartials _ ih =>
    exact ih ha.2 hchanges
  | unchecked _ _ ih => exact ih ha.2.2 hchanges
  | checking on _ ih =>
    obtain ⟨-, hnone⟩ := ih ⟨ha.2.1, fun _ => trivial⟩ fun _ => trivial
    rw [hnone rfl]
    refine ⟨Nat.le_refl 1, fun hoff => ?_⟩
    simp [Context.Checks, Context.checksTransforms, hoff] at on
  | checked _ _ _ ih => simpa only [Context.afterCheck_config] using ih ha.2.2 hchanges
  | configure _ ih =>
    obtain ⟨hlength, hnone⟩ := ih ha.2 hchanges.2
    exact ⟨hlength, fun hoff => hnone (hchanges.1 _ hoff)⟩

/-- At every point of a parse its own context has no more regions open than the limit, and
neither has a check of a conversion. So they are at most twice as many together if no code
of the grammar's author switches checks on, and within the limit if none are made. -/
theorem Grammar.inProgress_le
    (hclients : ∀ p ∈ G, p.Clients
      (·.Changes fun change => ∀ config, config.Capped bound → (change config).Capped bound))
    (hp : p ∈ G) (hctx : ctx.config.Capped bound)
    (h : InProgress G.rules (Action.parse p input) ctx es own checks) :
    own ≤ bound - ctx.depth ∧ (∀ r ∈ checks, r ≤ bound) ∧
      ((∀ p ∈ G, p.Clients (·.Changes fun change => ∀ config,
          config.checkTransforms = false → (change config).checkTransforms = false)) →
        own + checks.sum ≤ 2 * bound ∧
          (ctx.config.checkTransforms = false → own + checks.sum ≤ bound)) := by
  have ha : (Action.parse p input).Only (fun _ => True) (· ∈ G) := ⟨hp, fun _ => trivial⟩
  obtain ⟨hown, hchecks⟩ := h.own_le hclients ha (fun _ => trivial) hctx
  refine ⟨hown, hchecks, fun hquiet => ?_⟩
  obtain ⟨hlength, hnone⟩ := h.checks_length_le hquiet ha fun _ => trivial
  have hsum : checks.sum ≤ bound := by
    match checks, hlength, hchecks with
    | [], _, _ => exact Nat.zero_le _
    | [r], _, hr => simpa using hr
  refine ⟨by omega, fun hoff => ?_⟩
  rw [hnone hoff, List.sum_nil]
  omega

def rawOrDeeper : Parser Int64 :=
  .firstOf "there" [Leaf.ofKind "raw", .trace "x" (.trace "y" (Leaf.ofKind "z"))]

def retag (produced : List (Token Int64)) :
    Action (Parser Int64) Int64 (Except Failure (List (Token Int64))) :=
  .done (.ok (produced.map ({ · with kind := "z" })))

def retagged : Parser Int64 := .trace "t" (.transform "here" rawOrDeeper retag)

theorem retagged_inProgress (rules : Rules Int64) : ∃ es, InProgress rules
    (Action.parse retagged (Token.ofTexts ["a"])) (.ofConfig ⟨3, false, .safe, true⟩) es 1 [3] :=
  ⟨_, .calling <| .entering rfl <| .calling <| .called
    (.guarded rfl (.call (.client .done .done) .done) .done) <| .client .done <|
    .checking rfl <| .calling <| .entering rfl <| .called (.client .done .done) <|
    .calling <| .entering rfl <| .calling <| .entering rfl .stopped⟩

def raised : Parser Int64 :=
  .seq "s" [Leaf.configuring ({ · with maxDepth := 9 }), .trace "x" (.empty none)]

/-- So a limit of three does not bound both counts together, and where the author's code sets
another limit it does not bound the one. -/
theorem inProgress_beyond_limit :
    (∃ es, InProgress (fun _ => none) (Action.parse retagged (Token.ofTexts ["a"]))
      (.ofConfig ⟨3, false, .safe, true⟩) es 1 [3]) ∧
    ∃ es, InProgress (fun _ => none) (Action.parse raised (Token.ofTexts ["a"]))
      (.ofConfig ⟨1, false, .safe, false⟩) es 2 [] := by
  exact ⟨retagged_inProgress _, _, .calling <| .entering rfl <| .clearPartials <|
    .called (.client (.configure .done) .done) <| .clearPartials <|
    .calling <| .entering rfl .stopped⟩

def retagging : Grammar Int64 :=
  .ofList (fun _ => none)
    [retagged, .transform "here" rawOrDeeper retag, rawOrDeeper, Leaf.ofKind "raw",
      .trace "x" (.trace "y" (Leaf.ofKind "z")), .trace "y" (Leaf.ofKind "z"), Leaf.ofKind "z"]
    (by simp [retagged, rawOrDeeper, Parser.firstOf, Parser.parts, Leaf.ofKind, Leaf.plain])
    (by simp [retagged, rawOrDeeper, retag, Parser.firstOf, Parser.Clients, Leaf.ofKind,
      Leaf.plain, Action.Only])

theorem retagging_inProgress_le : ∃ es, InProgress retagging.rules
    (Action.parse retagged (Token.ofTexts ["a"])) (.ofConfig ⟨3, false, .safe, true⟩) es 1 [3] ∧
    1 ≤ 3 - 0 ∧ (∀ r ∈ [3], r ≤ 3) ∧ 1 + [3].sum ≤ 2 * 3 := by
  have hclients : ∀ ok, ∀ p ∈ retagging, p.Clients (·.Changes ok) := by
    simp [retagging, retagged, rawOrDeeper, retag, Parser.firstOf, Parser.Clients, Leaf.ofKind,
      Leaf.plain, Action.Changes]
  obtain ⟨es, h⟩ := retagged_inProgress retagging.rules
  obtain ⟨hown, hchecks, htotal⟩ := Grammar.inProgress_le (hclients _) List.mem_cons_self
    (⟨by decide, Nat.le_refl 3⟩ : Config.Capped 3 _) h
  exact ⟨es, h, hown, hchecks, (htotal (hclients _)).1⟩

end TokenGrammar
