import TokenGrammar.Proofs.Independence

/-!
# What a silent comparison certifies

Under `tryFast` a choice takes its first match and reports where the longest one is
another. A parse that reports nothing of the kind, and in which no parser fails
unrecoverably, has the same outcome under every mode (`Grammar.parse_switch`): each
choice of it would have answered alike, and from there on the parse goes on alike.
-/

namespace TokenGrammar

variable {V : Type}

/-- Whether an event is neither a report of a reordering nor an unrecoverable failure.
What code of the grammar's author meets does not count. -/
def Event.Quiet : Event V → Prop
  | reported finding => finding.isReorder = false
  | ended _ _ (.error failure) => failure.isRecoverable = true
  | _ => True

/-- The same, but what code of the grammar's author meets counts. -/
def Event.Silent (e : Event V) : Prop :=
  (∀ finding, e.reported? = some finding → finding.isReorder = false) ∧
    ∀ failure, e.failed? = some failure → failure.isRecoverable = true

theorem Event.Silent.quiet {e : Event V} (h : e.Silent) : e.Quiet := by
  cases e with
  | reported finding => exact h.1 finding rfl
  | ended p input o =>
    cases o with
    | ok m => trivial
    | error failure => exact h.2 failure rfl
  | _ => trivial

-- ---------------------------------------------------------------------------
-- One choice
-- ---------------------------------------------------------------------------

namespace Parser

structure Comparison.Numbered (c : Comparison V) (number : Nat) : Prop where
  first : c.first.number < number
  longest : c.longest.number = c.first.number → c.longest = c.first

theorem Comparison.Numbered.extend (h : ∀ c ∈ comparison, Comparison.Numbered c number)
    (m : Match V) : (Comparison.extend comparison ⟨number, m⟩).Numbered (number + 1) := by
  cases comparison with
  | none => exact ⟨Nat.lt_succ_self number, fun _ => rfl⟩
  | some c =>
    obtain ⟨hfirst, hlongest⟩ := h c rfl
    unfold Comparison.extend
    simp only
    split
    · exact ⟨Nat.lt_succ_of_lt hfirst, fun heq => absurd heq (Nat.ne_of_gt hfirst)⟩
    · exact ⟨Nat.lt_succ_of_lt hfirst, hlongest⟩

theorem Comparison.extend_longest (comparison : Option (Comparison V)) (number : Nat)
    (m : Match V) : (Comparison.extend comparison ⟨number, m⟩).longest.matched =
      longer (comparison.map (·.longest.matched)) m := by
  cases comparison with
  | none => rfl
  | some c =>
    simp only [Comparison.extend, longer, Option.map_some]
    split <;> rfl

theorem Comparison.extend_first (c : Comparison V) (choice : Choice V) :
    (Comparison.extend (some c) choice).first = c.first := by
  unfold Comparison.extend
  simp only
  split <;> rfl

variable [TokenValue V] {rules : Rules V}

theorem Comparison.Numbered.quiet {c : Comparison V} (hc : c.Numbered number)
    (h : Runs rules (comparedFrom location input [] number (some c) failures) ctx o ctx' es)
    (hquiet : ∀ e ∈ es, e.Quiet) :
    c.longest = c.first ∧ Runs rules (Action.succeed c.first.matched) ctx o ctx' es := by
  rw [comparedFrom, Comparison.finding?] at h
  by_cases hsame : c.longest.number = c.first.number
  · rw [if_pos hsame] at h
    exact ⟨hc.longest hsame, h⟩
  · rw [if_neg hsame] at h
    cases h with
    | report rest =>
      have hreport : true = false := hquiet _ List.mem_cons_self
      contradiction

theorem longestFrom_of_comparedFrom
    (h : Runs rules (comparedFrom location input options number comparison failures) ctx o ctx' es)
    (hquiet : ∀ e ∈ es, e.Quiet) (hnumbered : ∀ c ∈ comparison, Comparison.Numbered c number) :
    Runs rules (longestFrom input options (comparison.map (·.longest.matched)) failures)
      ctx o ctx' es := by
  induction options generalizing number comparison failures ctx es with
  | nil =>
    cases comparison with
    | none => exact h
    | some c =>
      obtain ⟨hlongest, hrun⟩ := (hnumbered c rfl).quiet h hquiet
      rw [← hlongest] at hrun
      exact hrun
  | cons option options ih =>
    obtain ⟨outcome, ctx₁, nested, es₁, parse, rest, rfl⟩ := h.of_call
    have hrest : ∀ e ∈ es₁, e.Quiet := fun e he => hquiet e (List.mem_append_right _ he)
    refine .call parse ?_
    cases outcome with
    | ok m =>
      have hgo := ih rest hrest fun c hc =>
        Option.some.inj hc ▸ Comparison.Numbered.extend hnumbered m
      simpa [Comparison.extend_longest] using hgo
    | error failure =>
      simp only at rest ⊢
      split at rest
      · next hrecoverable =>
        rw [if_pos hrecoverable]
        exact ih rest hrest fun c hc =>
          ⟨Nat.lt_succ_of_lt (hnumbered c hc).first, (hnumbered c hc).longest⟩
      · next hfatal => rwa [if_neg hfatal]

theorem first_of_comparedFrom
    (h : Runs rules (comparedFrom location input options number (some c) failures) ctx o ctx' es)
    (hquiet : ∀ e ∈ es, e.Quiet) : o = .ok c.first.matched := by
  induction options generalizing number c failures ctx es with
  | nil =>
    rw [comparedFrom] at h
    split at h
    · cases h with
      | report rest => cases rest; rfl
    · cases h; rfl
  | cons option options ih =>
    obtain ⟨outcome, ctx₁, nested, es₁, parse, rest, rfl⟩ := h.of_call
    obtain ⟨hspan, hrest⟩ := List.forall_mem_append.1 hquiet
    cases outcome with
    | ok m => rw [ih rest hrest, Comparison.extend_first]
    | error failure =>
      have hrecoverable : failure.isRecoverable = true := (Event.forall_mem_span.1 hspan).2.2
      simp only [if_pos hrecoverable] at rest
      exact ih rest hrest

theorem firstFrom_of_comparedFrom
    (h : Runs rules (comparedFrom location input options number none failures) ctx o ctx' es)
    (hquiet : ∀ e ∈ es, e.Quiet) :
    ∃ ctx'' es', Runs rules (firstFrom input options failures) ctx o ctx'' es' ∧
      ∀ e ∈ es', e.Quiet := by
  induction options generalizing number failures ctx es with
  | nil => exact ⟨_, _, h, hquiet⟩
  | cons option options ih =>
    obtain ⟨outcome, ctx₁, nested, es₁, parse, rest, rfl⟩ := h.of_call
    obtain ⟨hspan, hrest⟩ := List.forall_mem_append.1 hquiet
    cases outcome with
    | ok m =>
      obtain rfl := first_of_comparedFrom rest hrest
      exact ⟨_, _, .call parse .done, by simpa using hspan⟩
    | error failure =>
      have hrecoverable : failure.isRecoverable = true := (Event.forall_mem_span.1 hspan).2.2
      simp only [if_pos hrecoverable] at rest
      obtain ⟨ctx₂, es₂, hrun, hquiet₂⟩ := ih rest hrest
      refine ⟨ctx₂, _, .call parse ?_, List.forall_mem_append.2 ⟨hspan, hquiet₂⟩⟩
      simp only [if_pos hrecoverable]
      exact hrun

end Parser

-- ---------------------------------------------------------------------------
-- Switching the mode of a run
-- ---------------------------------------------------------------------------

variable {mode : ChoiceMode}

/-- Whether `ctx₂` stands where `ctx₁` does, but under `mode` in place of `tryFast`. -/
structure Context.Switched (mode : ChoiceMode) (ctx₁ ctx₂ : Context V) : Prop where
  tryFast : ctx₁.config.choiceMode = .tryFast
  mode : ctx₂.config.choiceMode = mode
  maxDepth : ctx₁.config.maxDepth = ctx₂.config.maxDepth
  depth : ctx₁.depth = ctx₂.depth
  unchecked : ctx₂.config.checkTransforms = false

namespace Context.Switched

variable {ctx₁ ctx₁' ctx₂ ctx₂' : Context V}

theorem congr (h : ctx₁.Switched mode ctx₂) (hconfig₁ : ctx₁'.config = ctx₁.config)
    (hconfig₂ : ctx₂'.config = ctx₂.config) (hdepth : ctx₁'.depth = ctx₂'.depth) :
    ctx₁'.Switched mode ctx₂' := by
  refine ⟨?_, ?_, ?_, hdepth, ?_⟩
  · rw [hconfig₁, h.tryFast]
  · rw [hconfig₂, h.mode]
  · rw [hconfig₁, hconfig₂, h.maxDepth]
  · rw [hconfig₂, h.unchecked]

theorem not_checks (h : ctx₁.Switched mode ctx₂) (converted : List (Token V)) :
    ¬ ctx₁.Checks converted ∧ ¬ ctx₂.Checks converted := by
  simp [Checks, checksTransforms, h.tryFast, h.unchecked]

theorem logFailure (h : ctx₁.Switched mode ctx₂) (failure : Failure)
    (fallback : Option Position) :
    (ctx₁.logFailure failure fallback).Switched mode (ctx₂.logFailure failure fallback) :=
  h.congr rfl rfl h.depth

theorem report (h : ctx₁.Switched mode ctx₂) (diagnostic : Diagnostic) :
    (ctx₁.report diagnostic).Switched mode (ctx₂.report diagnostic) :=
  h.congr rfl rfl h.depth

theorem clearPartials (h : ctx₁.Switched mode ctx₂) :
    { ctx₁ with partials := [] }.Switched mode { ctx₂ with partials := [] } :=
  h.congr rfl rfl h.depth

theorem keepPartials (h : ctx₁.Switched mode ctx₂) (produced : List (Token V)) :
    { ctx₁ with partials := produced ++ ctx₁.partials }.Switched mode
      { ctx₂ with partials := produced ++ ctx₂.partials } :=
  h.congr rfl rfl h.depth

theorem leave [TokenValue V] (h : ctx₁.Switched mode ctx₂) :
    (ctx₁.leave name place mark₁ o).Switched mode (ctx₂.leave name place mark₂ o) :=
  h.congr (leave_config ctx₁) (leave_config ctx₂) (by simp [h.depth])

end Context.Switched

variable [TokenValue V] {rules : Rules V}

/-- Whether `b` can answer as `a` does whenever `a` runs quietly. -/
def Action.Refines (rules : Rules V) (a b : Action (Parser V) V α) : Prop :=
  ∀ ctx x ctx' es, Runs rules a ctx x ctx' es → (∀ e ∈ es, e.Quiet) →
    ∃ ctx'' es', Runs rules b ctx x ctx'' es' ∧ ∀ e ∈ es', e.Quiet

theorem Parser.choose_refines (location : String) (options : List (Parser V))
    (input : List (Token V)) (mode : ChoiceMode) :
    Action.Refines rules (choose location options input .tryFast)
      (choose location options input mode) := by
  intro ctx x ctx' es h hquiet
  cases mode with
  | safe => exact ⟨ctx', es, longestFrom_of_comparedFrom h hquiet nofun, hquiet⟩
  | fast => exact firstFrom_of_comparedFrom h hquiet
  | tryFast => exact ⟨ctx', es, h, hquiet⟩

/-- Whether an action has, wherever the depth guard acts alike, one answer. -/
def Action.Steady (rules : Rules V) (a : Action (Parser V) V α) : Prop :=
  ∀ ctx₁ ctx₂ x ctx₁' es, ctx₁.config.maxDepth = ctx₂.config.maxDepth →
    ctx₁.depth = ctx₂.depth → Runs rules a ctx₁ x ctx₁' es →
    ∃ ctx₂' es', Runs rules a ctx₂ x ctx₂' es'

def Action.RestoresOptions (rules : Rules V) (a : Action (Parser V) V α) : Prop :=
  ∀ ctx x ctx' es, Runs rules a ctx x ctx' es → ctx'.config = ctx.config

/-- Whether an action restores the options and answers under every mode alike, as code
that never asks for the mode does up to the parsers that it calls. -/
def Action.Indifferent (rules : Rules V) (a : Action (Parser V) V α) : Prop :=
  a.ModeFree ∨ a.Steady rules ∧ a.RestoresOptions rules

/-- Whether an action of `G` goes on under every mode as it quietly does under
`tryFast`, and restores the options. Author's code that is steady may take any way. -/
def Action.Switchable (G : Grammar V) : {α : Type} → Action (Parser V) V α → Prop
  | _, .done _ => True
  | _, .call p _ next => p ∈ G ∧ ∀ o, (next o).Switchable G
  | _, .guarded _ _ region next => region.Switchable G ∧ ∀ o, (next o).Switchable G
  | _, .client code next =>
    (code.Switchable G ∨ code.Steady G.rules ∧ code.RestoresOptions G.rules) ∧
      ∀ r, (next r).Switchable G
  | _, .askMode next =>
    ∀ mode, (next .tryFast).Refines G.rules (next mode) ∧ (next mode).Switchable G
  | _, .logFailure _ _ next | _, .report _ next | _, .clearPartials next
  | _, .keepPartials _ next | _, .checkReproduction _ _ _ next => next.Switchable G
  | _, .configure _ _ => False

variable {G : Grammar V}

theorem Action.Only.switchable {a : Action (Parser V) V α} (h : a.Only E (· ∈ G))
    (hmode : ¬ E .mode) (hoptions : ¬ E .options) : a.Switchable G := by
  induction a with
  | done => trivial
  | call p input next ih => exact ⟨h.1, fun o => ih o (h.2 o)⟩
  | guarded name input region next ihRegion ih => exact ⟨ihRegion h.1, fun o => ih o (h.2 o)⟩
  | client code next ihCode ih => exact ⟨.inl (ihCode h.1), fun r => ih r (h.2 r)⟩
  | askMode next ih => exact absurd h.1 hmode
  | logFailure _ _ next ih | report _ next ih | clearPartials next ih | keepPartials _ next ih =>
    exact ih h.2
  | checkReproduction p location converted next ih => exact ih h.2.2
  | configure change next ih => exact absurd h.1 hoptions

theorem Parser.body_switchable {p : Parser V} (hp : p ∈ G)
    (hclients : p.Clients (·.Indifferent G.rules)) (input : List (Token V)) :
    (p.body G.rules input).Switchable G := by
  have hcode : ∀ {γ} {code : Action (Parser V) V (Except Failure γ)},
      code.Only (fun _ => True) (· ∈ G) → code.Indifferent G.rules →
      code.Switchable G ∨ code.Steady G.rules ∧ code.RestoresOptions G.rules := by
    intro γ code hcalls hindifferent
    refine hindifferent.imp_left fun hfree => ?_
    have honly : code.Only (fun e => e ≠ .mode ∧ e ≠ .options) (· ∈ G) :=
      hfree.and hcalls (fun _ he _ => he) (fun _ _ hq => hq)
    exact honly.switchable (by simp) (by simp)
  have hother : p.Clients (fun a => a.Only (fun e => e ≠ .mode ∧ e ≠ .options) (· ∈ G)) →
      p.asksMode = false → (p.body G.rules input).Switchable G := by
    intro hnone hasks
    have honly : (p.body G.rules input).Only (fun e => e ≠ .mode ∧ e ≠ .options) (· ∈ G) :=
      body_only (fun _ hmode hoptions => ⟨hmode, hoptions⟩) (G.parts p hp) hnone
        (by simp [hasks]) input
    exact honly.switchable (by simp) (by simp)
  cases p with
  | leaf program => exact ⟨hcode (G.clients _ hp input) (hclients input), fun _ => trivial⟩
  | transform location item convert =>
    refine ⟨G.parts _ hp _ List.mem_cons_self, fun o => ?_⟩
    cases o with
    | error failure => trivial
    | ok m =>
      refine ⟨hcode (G.clients _ hp m.produced) (hclients m.produced), fun r => ?_⟩
      cases r <;> trivial
  | choice location own options =>
    cases own with
    | some own => exact hother trivial rfl
    | none =>
      refine ⟨fun mode => ⟨choose_refines location options input mode, ?_⟩, fun _ => trivial⟩
      have honly : (choose location options input mode).Only
          (fun e => e ≠ .mode ∧ e ≠ .options) (· ∈ G) :=
        (choose_callsOn (G.parts _ hp) location mode).only
          fun _ hmode hoptions => ⟨hmode, hoptions⟩
      exact honly.switchable (by simp) (by simp)
  | _ => exact hother trivial rfl

theorem Runs.config_of_switchable
    (hG : ∀ p ∈ G, ∀ input, (p.body G.rules input).Switchable G)
    (h : Runs G.rules a ctx x ctx' es) (ha : a.Switchable G) : ctx'.config = ctx.config := by
  induction h with
  | done => rfl
  | call _ _ ihParse ih => rw [ih (ha.2 _), ihParse (hG _ ha.1 _)]
  | refused _ _ ih => exact ih (ha.2 _)
  | guarded gate _ _ ihInside ih =>
    rw [ih (ha.2 _), Context.leave_config, ihInside ha.1, Context.enter?_config gate]
  | client inside _ ihInside ih =>
    obtain ⟨hcode, hnext⟩ := ha
    rw [ih (hnext _)]
    rcases hcode with hcode | ⟨-, hrestores⟩
    · exact ihInside hcode
    · exact hrestores _ _ _ _ inside
  | askMode _ ih => exact ih (ha _).2
  | logFailure _ ih | report _ ih | clearPartials _ ih | keepPartials _ ih
  | unchecked _ _ ih => exact ih ha
  | checked _ _ _ _ ih => rw [ih ha, Context.afterCheck_config]
  | configure _ _ => exact ha.elim

/-- A silent run under `tryFast` can be followed under every mode. -/
theorem Runs.switch (hG : ∀ p ∈ G, ∀ input, (p.body G.rules input).Switchable G)
    (h : Runs G.rules a ctx₁ x ctx₁' es) (hsilent : ∀ e ∈ es, e.Silent) (ha : a.Switchable G)
    (hctx : ctx₁.Switched mode ctx₂) :
    ∃ ctx₂' es', Runs G.rules a ctx₂ x ctx₂' es' ∧ ∀ e ∈ es', e.Quiet := by
  -- Two runs of one action end in contexts that again differ in the mode alone.
  have hafter : ∀ {β} {b : Action (Parser V) V β} {ctx₁ ctx₂ ctx₁' ctx₂' y es es'},
      Runs G.rules b ctx₁ y ctx₁' es → Runs G.rules b ctx₂ y ctx₂' es' →
      b.Switchable G → ctx₁.Switched mode ctx₂ → ctx₁'.Switched mode ctx₂' :=
    fun h₁ h₂ hb hctx => hctx.congr (h₁.config_of_switchable hG hb)
      (h₂.config_of_switchable hG hb) (by rw [h₁.depth, h₂.depth, hctx.depth])
  induction h generalizing ctx₂ with
  | done => exact ⟨_, _, .done, nofun⟩
  | call parse _ ihParse ih =>
    obtain ⟨hspan, hrest⟩ := List.forall_mem_append.1 hsilent
    obtain ⟨-, hinner, hend⟩ := Event.forall_mem_span.1 hspan
    obtain ⟨_, es₁, parse₂, hquiet₁⟩ := ihParse hinner (hG _ ha.1 _) hctx
    obtain ⟨_, es₂, rest₂, hquiet₂⟩ :=
      ih hrest (ha.2 _) (hafter parse parse₂ (hG _ ha.1 _) hctx)
    exact ⟨_, _, .call parse₂ rest₂, List.forall_mem_append.2
      ⟨Event.forall_mem_span.2 ⟨trivial, hquiet₁, hend.quiet⟩, hquiet₂⟩⟩
  | refused gate _ ih =>
    obtain ⟨-, hrest⟩ := List.forall_mem_cons.1 hsilent
    obtain ⟨_, _, rest₂, hquiet₂⟩ := ih hrest (ha.2 _) hctx
    exact ⟨_, _, .refused (Context.enter?_error_congr hctx.maxDepth hctx.depth gate) rest₂,
      List.forall_mem_cons.2 ⟨trivial, hquiet₂⟩⟩
  | guarded gate inside _ ihInside ih =>
    obtain ⟨-, hregion⟩ := List.forall_mem_cons.1 hsilent
    obtain ⟨hinner, hrest⟩ := List.forall_mem_append.1 hregion
    obtain ⟨entered₂, gate₂⟩ := Context.enter?_ok_congr hctx.maxDepth hctx.depth gate
    have hlevel := hctx.congr (Context.enter?_config gate) (Context.enter?_config gate₂)
      (by rw [Context.enter?_depth gate, Context.enter?_depth gate₂, hctx.depth])
    obtain ⟨_, es₁, inside₂, hquiet₁⟩ := ihInside hinner ha.1 hlevel
    obtain ⟨_, es₂, rest₂, hquiet₂⟩ := ih hrest (ha.2 _)
      ((hafter inside inside₂ ha.1 hlevel).leave)
    exact ⟨_, _, .guarded gate₂ inside₂ rest₂, List.forall_mem_cons.2
      ⟨trivial, List.forall_mem_append.2 ⟨hquiet₁, hquiet₂⟩⟩⟩
  | @client _ _ _ result _ _ _ _ _ _ _ inside _ ihInside ih =>
    obtain ⟨hcode, hnext⟩ := ha
    obtain ⟨-, htail⟩ := List.forall_mem_cons.1 hsilent
    obtain ⟨hinner, hanswered⟩ := List.forall_mem_append.1 htail
    obtain ⟨-, hrest⟩ := List.forall_mem_cons.1 hanswered
    -- Steady code need not be followed step by step.
    obtain ⟨_, _, inside₂, hctx₂⟩ : ∃ ctx₂' es', Runs G.rules _ ctx₂ result ctx₂' es' ∧
        Context.Switched mode _ ctx₂' := by
      rcases hcode with hcode | ⟨hsteady, hrestores⟩
      · obtain ⟨_, _, inside₂, -⟩ :=
          ihInside (fun e he => hinner (.within e) (List.mem_map_of_mem he)) hcode hctx
        exact ⟨_, _, inside₂, hafter inside inside₂ hcode hctx⟩
      · obtain ⟨_, _, inside₂⟩ := hsteady _ _ _ _ _ hctx.maxDepth hctx.depth inside
        exact ⟨_, _, inside₂, hctx.congr (hrestores _ _ _ _ inside) (hrestores _ _ _ _ inside₂)
          (by rw [inside.depth, inside₂.depth, hctx.depth])⟩
    obtain ⟨_, _, rest₂, hquiet₂⟩ := ih hrest (hnext _) hctx₂
    exact ⟨_, _, .client inside₂ rest₂, List.forall_mem_cons.2 ⟨trivial,
      List.forall_mem_append.2 ⟨List.forall_mem_map.2 fun _ _ => trivial,
        List.forall_mem_cons.2 ⟨trivial, hquiet₂⟩⟩⟩⟩
  | askMode _ ih =>
    rw [hctx.tryFast] at ih
    obtain ⟨ctx₂', es₁, hfollowed, hquiet₁⟩ := ih hsilent (ha _).2 hctx
    obtain ⟨_, es₂, hrest, hquiet₂⟩ := (ha mode).1 _ _ _ _ hfollowed hquiet₁
    rw [← hctx.mode] at hrest
    exact ⟨_, _, .askMode hrest, hquiet₂⟩
  | logFailure _ ih =>
    obtain ⟨-, hrest⟩ := List.forall_mem_cons.1 hsilent
    obtain ⟨_, _, rest₂, hquiet₂⟩ := ih hrest ha (hctx.logFailure _ _)
    exact ⟨_, _, .logFailure rest₂, List.forall_mem_cons.2 ⟨trivial, hquiet₂⟩⟩
  | report _ ih =>
    obtain ⟨hreported, hrest⟩ := List.forall_mem_cons.1 hsilent
    obtain ⟨_, _, rest₂, hquiet₂⟩ := ih hrest ha (hctx.report _)
    exact ⟨_, _, .report rest₂, List.forall_mem_cons.2 ⟨hreported.quiet, hquiet₂⟩⟩
  | clearPartials _ ih =>
    obtain ⟨_, _, rest₂, hquiet₂⟩ := ih hsilent ha hctx.clearPartials
    exact ⟨_, _, .clearPartials rest₂, hquiet₂⟩
  | keepPartials _ ih =>
    obtain ⟨_, _, rest₂, hquiet₂⟩ := ih hsilent ha (hctx.keepPartials _)
    exact ⟨_, _, .keepPartials rest₂, hquiet₂⟩
  | unchecked _ _ ih =>
    obtain ⟨_, _, rest₂, hquiet₂⟩ := ih hsilent ha hctx
    exact ⟨_, _, .unchecked (hctx.not_checks _).2 rest₂, hquiet₂⟩
  | checked on _ _ _ _ => exact absurd on (hctx.not_checks _).1
  | configure _ _ => exact ha.elim

/-- A parse under `tryFast` that reports no reordering, and in which no parser fails
unrecoverably, has the same outcome under every mode. Code of the grammar's author may
look at the mode if its answer is steady, and must not change the options. -/
theorem Grammar.parse_switch {G : Grammar V}
    (hclients : ∀ p ∈ G, p.Clients (·.Indifferent G.rules)) (hp : p ∈ G) {ctx : Context V}
    (htryFast : ctx.config.choiceMode = .tryFast)
    (hunchecked : ctx.config.checkTransforms = false) (h : Parses G.rules p input ctx o ctx' es)
    (hreorders : ctx'.diagnostics.toList.filter Diagnostic.isReorder =
      ctx.diagnostics.toList.filter Diagnostic.isReorder)
    (hfailed : ∀ e ∈ es, ∀ failure, e.failed? = some failure → failure.isRecoverable = true)
    (mode : ChoiceMode) :
    ∃ n ctx'', Parser.run G.rules n p input
      { ctx with config := { ctx.config with choiceMode := mode } } = some (o, ctx'') := by
  obtain ⟨nested, hrun, rfl⟩ := h
  have hnone : Event.reorders nested = [] := by
    rw [hrun.diagnostics, List.filter_append, List.append_right_eq_self] at hreorders
    exact hreorders
  have hsilent : ∀ e ∈ nested, e.Silent := fun e he =>
    ⟨fun finding hfinding => Bool.eq_false_iff.2 <| List.filter_eq_nil_iff.1 hnone finding <|
      List.mem_filterMap.2 ⟨e, he, hfinding⟩, (Event.forall_mem_span.1 hfailed).2.1 e he⟩
  have hG : ∀ p ∈ G, ∀ input, (p.body G.rules input).Switchable G :=
    fun p hp input => Parser.body_switchable hp (hclients p hp) input
  have hctx : ctx.Switched mode { ctx with config := { ctx.config with choiceMode := mode } } :=
    ⟨htryFast, rfl, rfl, rfl, hunchecked⟩
  obtain ⟨ctx'', es', hswitched, -⟩ := hrun.switch hG hsilent (hG p hp input) hctx
  obtain ⟨n, hn⟩ := parses_iff_run.1 ⟨_, es', hswitched, rfl⟩
  exact ⟨n, ctx'', hn⟩

def oneOrNone : Grammar Int64 :=
  .ofList (fun _ => none)
    [.oneOf "here" [Leaf.take 1 1, .expected "none"], Leaf.take 1 1, .expected "none"]
    (by simp [Parser.parts, Parser.oneOf, Leaf.take])
    (by simp [Parser.Clients, Parser.oneOf, Leaf.take, Action.succeed, Action.Only])

/-- A comparison of which the second option mismatches is silent. -/
theorem oneOrNone_parse_switch : ∃ p ∈ oneOrNone, ∃ o, ∀ mode, ∃ n ctx,
    Parser.run oneOrNone.rules n p (Token.ofTexts ["a"]) (.ofConfig ⟨5, false, mode, false⟩) =
      some (o, ctx) := by
  have hfree : ∀ p ∈ oneOrNone, p.Clients Action.ModeFree := by
    simp [oneOrNone, Parser.Clients, Parser.oneOf, Leaf.take, Action.succeed, Action.ModeFree,
      Action.Only]
  have hclients : ∀ p ∈ oneOrNone, p.Clients (·.Indifferent oneOrNone.rules) :=
    fun p hp => (hfree p hp).mono fun _ => .inl
  have hp : .oneOf "here" [Leaf.take 1 1, .expected "none"] ∈ oneOrNone := List.mem_cons_self
  have hparse : Parses oneOrNone.rules (.oneOf "here" [Leaf.take 1 1, .expected "none"])
      (Token.ofTexts ["a"]) (.ofConfig ⟨5, false, .tryFast, false⟩) _ _ _ :=
    ⟨_, .guarded rfl (.askMode (.call (.client .done .done) (.call .done .done))) .done, rfl⟩
  refine ⟨_, hp, _, Grammar.parse_switch hclients hp rfl rfl hparse rfl ?_⟩
  simp [Event.span, Event.failed?, Failure.notMatch, Failure.isRecoverable, Failure.is,
    Fault.kind]

def unlimited : Parser Int64 := Leaf.configuring fun config => { config with maxDepth := 0 }

def lifted : Parser Int64 :=
  .seq "all" [.oneOf "here" [Leaf.take 1 1, unlimited], .seq "outer" [.seq "nested" []]]

/-- Where the author's code changes the options, a silent comparison certifies nothing:
it runs the code of an option that `fast` leaves out. -/
theorem lifted_not_switched :
    (∀ p ∈ [Leaf.take 1 1, unlimited], p.Clients fun a => ∀ ctx₁ ctx₂ x₁ x₂ ctx₁' ctx₂' es₁ es₂,
      Runs (fun _ => none) a ctx₁ x₁ ctx₁' es₁ → Runs (fun _ => none) a ctx₂ x₂ ctx₂' es₂ →
      x₁ = x₂) ∧
    ∃ o ctx es, Parses (fun _ => none) lifted (Token.ofTexts ["a"])
        (.ofConfig ⟨2, false, .tryFast, false⟩) o ctx es ∧
      ctx.diagnostics = #[] ∧ (∀ e ∈ es, e.failed? = none) ∧
      ∃ n o' ctx', Parser.run (fun _ => none) n lifted (Token.ofTexts ["a"])
        (.ofConfig ⟨2, false, .fast, false⟩) = some (o', ctx') ∧ o' ≠ o := by
  have htryFast : Parses (fun _ => none) lifted (Token.ofTexts ["a"])
      (.ofConfig ⟨2, false, .tryFast, false⟩) (.ok ⟨1, Token.ofTexts ["a"]⟩) _ _ :=
    ⟨_, .guarded rfl
      (.clearPartials <| .call
        (.guarded rfl
          (.askMode <| .call (.client .done .done) <|
            .call (.client (.configure .done) .done) .done)
          .done) <|
        .clearPartials <| .call
          (.guarded rfl (.clearPartials <| .call (.guarded rfl .done .done) .done) .done)
          .done)
      .done, rfl⟩
  have hfast : Parses (fun _ => none) lifted (Token.ofTexts ["a"])
      (.ofConfig ⟨2, false, .fast, false⟩) (.error (.stackOverflow 2 2 (some (.atIndex 1)))) _ _ :=
    ⟨_, .guarded rfl
      (.clearPartials <| .call
        (.guarded rfl (.askMode <| .call (.client .done .done) .done) .done) <|
        .clearPartials <| .call
          (.guarded rfl
            (.clearPartials <| .call (.refused rfl .done) <| .keepPartials .done) .done) <|
          .keepPartials .done)
      .done, rfl⟩
  obtain ⟨n, hn⟩ := parses_iff_run.1 ⟨_, hfast⟩
  refine ⟨?_, _, _, _, htryFast, rfl, ?_, n, _, _, hn, nofun⟩
  · clear htryFast hfast hn
    simp only [List.forall_mem_cons, Leaf.take, unlimited, Leaf.configuring, Parser.Clients]
    refine ⟨fun input => ?_, fun input => ?_, nofun⟩
    · intro _ _ _ _ _ _ _ _ h₁ h₂
      cases h₁
      cases h₂
      rfl
    · intro _ _ _ _ _ _ _ _ h₁ h₂
      cases h₁ with
      | configure rest₁ =>
        cases h₂ with
        | configure rest₂ =>
          cases rest₁
          cases rest₂
          rfl
  · simp [Event.span, Event.failed?]

end TokenGrammar
