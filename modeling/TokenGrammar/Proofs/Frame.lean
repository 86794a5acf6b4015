import TokenGrammar.Proofs.Grammar

/-!
# What a run leaves as it was

The depth guard changes nothing but the depth and the trace, and gives the depth
back. A run adds to the log of failures what its events log, and to the findings
what they report; it changes no options unless its author's code does.
-/

namespace TokenGrammar

-- ---------------------------------------------------------------------------
-- What a run logs and reports
-- ---------------------------------------------------------------------------

namespace Event

variable {V : Type}

def logged? : Event V → Option Failure
  | logged failure => some failure
  | within event => event.logged?
  | _ => none

def reported? : Event V → Option Diagnostic
  | reported diagnostic => some diagnostic
  | within event => event.reported?
  | _ => none

@[simp high] theorem logged?_map_within (es : List (Event V)) :
    (es.map within).filterMap logged? = es.filterMap logged? :=
  List.filterMap_map

@[simp high] theorem logged?_map_scratch (es : List (Event V)) :
    (es.map scratch).filterMap logged? = [] := by
  rw [List.filterMap_map]
  exact List.filterMap_eq_nil_iff.2 fun _ _ => rfl

@[simp high] theorem reported?_map_within (es : List (Event V)) :
    (es.map within).filterMap reported? = es.filterMap reported? :=
  List.filterMap_map

@[simp high] theorem reported?_map_scratch (es : List (Event V)) :
    (es.map scratch).filterMap reported? = [] := by
  rw [List.filterMap_map]
  exact List.filterMap_eq_nil_iff.2 fun _ _ => rfl

@[simp] theorem logged?_span (p : Parser V) (input : List (Token V)) (o : Outcome V)
    (es : List (Event V)) : (span p input o es).filterMap logged? = es.filterMap logged? := by
  simp [span, List.filterMap_cons, logged?]

@[simp] theorem reported?_span (p : Parser V) (input : List (Token V)) (o : Outcome V)
    (es : List (Event V)) :
    (span p input o es).filterMap reported? = es.filterMap reported? := by
  simp [span, List.filterMap_cons, reported?]

@[simp] theorem logged?_ofCheck [TokenValue V] (location : String) (converted : List (Token V))
    (o : Outcome V) : (ofCheck location converted o).filterMap logged? = [] := by
  unfold ofCheck
  split <;> rfl

end Event

-- ---------------------------------------------------------------------------
-- The depth guard
-- ---------------------------------------------------------------------------

structure Config.Capped (bound : Nat) (config : Config) : Prop where
  limit : 0 < config.maxDepth
  bound : config.maxDepth ≤ bound

/-- Whether no limit on depth is set, or one that lets in `depth` levels. -/
def Config.Allows (depth : Nat) (config : Config) : Prop :=
  config.maxDepth = 0 ∨ depth ≤ config.maxDepth

abbrev Config.KeepsRoom (depth : Nat) (change : Config → Config) : Prop :=
  ∀ config, config.Allows depth → (change config).Allows depth

namespace Context

variable {V : Type}

def AtLimit (ctx : Context V) : Prop :=
  0 < ctx.config.maxDepth ∧ ctx.config.maxDepth ≤ ctx.depth

theorem not_atLimit_iff {ctx : Context V} : ¬ ctx.AtLimit ↔ ctx.config.Allows (ctx.depth + 1) := by
  unfold AtLimit Config.Allows
  omega

theorem enter?_error {ctx : Context V} (h : ctx.enter? name place = .error refusal) :
    ctx.AtLimit ∧ refusal = .stackOverflow ctx.depth ctx.config.maxDepth place := by
  unfold enter? deepen? at h
  split at h
  · next hlimit => cases h; exact ⟨hlimit, rfl⟩
  · cases h

theorem enter?_ok {ctx : Context V} (h : ctx.enter? name place = .ok entered) :
    ¬ ctx.AtLimit ∧ ∃ traces, entered = { ctx with depth := ctx.depth + 1, traces } := by
  unfold enter? deepen? at h
  split at h
  · cases h
  · next hlimit =>
    refine ⟨hlimit, ?_⟩
    simp only [bind, Except.bind, pure, Except.pure, Except.ok.injEq] at h
    split at h
    · exact ⟨_, h.symm⟩
    · exact ⟨_, h.symm⟩

theorem exists_enter? {ctx : Context V} (h : ¬ ctx.AtLimit) (name : String)
    (place : Option Position) : ∃ entered, ctx.enter? name place = .ok entered := by
  cases hgate : ctx.enter? name place with
  | error refusal => exact absurd (enter?_error hgate).1 h
  | ok entered => exact ⟨entered, rfl⟩

theorem enter?_of_atLimit {ctx : Context V} (h : ctx.AtLimit) (name : String)
    (place : Option Position) :
    ctx.enter? name place = .error (.stackOverflow ctx.depth ctx.config.maxDepth place) := by
  cases hgate : ctx.enter? name place with
  | error refusal => rw [(enter?_error hgate).2]
  | ok entered => exact absurd h (enter?_ok hgate).1

theorem depth_lt_of_enter? {ctx : Context V} (hctx : ctx.config.Capped bound)
    (h : ctx.enter? name place = .ok entered) : ctx.depth < bound := by
  have hopen : ¬ (0 < ctx.config.maxDepth ∧ ctx.config.maxDepth ≤ ctx.depth) := (enter?_ok h).1
  have hlimit := hctx.limit
  have hbound := hctx.bound
  omega

section
variable {ctx₁ ctx₂ : Context V} (hmax : ctx₁.config.maxDepth = ctx₂.config.maxDepth)
  (hdepth : ctx₁.depth = ctx₂.depth)
include hmax hdepth

theorem enter?_error_congr (h : ctx₁.enter? name place = .error refusal) :
    ctx₂.enter? name place = .error refusal := by
  obtain ⟨hlimit, rfl⟩ := enter?_error h
  unfold AtLimit at hlimit
  rw [hmax, hdepth] at hlimit ⊢
  exact enter?_of_atLimit hlimit name place

theorem enter?_ok_congr (h : ctx₁.enter? name place = .ok entered₁) :
    ∃ entered₂, ctx₂.enter? name place = .ok entered₂ := by
  refine exists_enter? (fun hlimit => (enter?_ok h).1 ?_) name place
  unfold AtLimit at hlimit ⊢
  rwa [hmax, hdepth]

end

section
variable {ctx entered : Context V} (h : ctx.enter? name place = .ok entered)
include h

theorem enter?_depth : entered.depth = ctx.depth + 1 := by
  obtain ⟨-, _, rfl⟩ := enter?_ok h; rfl

theorem enter?_config : entered.config = ctx.config := by
  obtain ⟨-, _, rfl⟩ := enter?_ok h; rfl

theorem enter?_failures : entered.failures = ctx.failures := by
  obtain ⟨-, _, rfl⟩ := enter?_ok h; rfl

theorem enter?_diagnostics : entered.diagnostics = ctx.diagnostics := by
  obtain ⟨-, _, rfl⟩ := enter?_ok h; rfl

end

section
variable [TokenValue V]

theorem leave_eq (ctx : Context V) (name : String) (place : Option Position)
    (mark : Nat) (o : Outcome V) :
    ∃ traces, ctx.leave name place mark o = { ctx with depth := ctx.depth - 1, traces } := by
  unfold leave recordOutcome
  split
  · simp only
    split <;> exact ⟨_, rfl⟩
  · exact ⟨_, rfl⟩

@[simp] theorem leave_depth (ctx : Context V) :
    (ctx.leave name place mark o).depth = ctx.depth - 1 := by
  obtain ⟨_, h⟩ := leave_eq ctx name place mark o; rw [h]

@[simp] theorem leave_config (ctx : Context V) :
    (ctx.leave name place mark o).config = ctx.config := by
  obtain ⟨_, h⟩ := leave_eq ctx name place mark o; rw [h]

@[simp] theorem leave_failures (ctx : Context V) :
    (ctx.leave name place mark o).failures = ctx.failures := by
  obtain ⟨_, h⟩ := leave_eq ctx name place mark o; rw [h]

@[simp] theorem leave_diagnostics (ctx : Context V) :
    (ctx.leave name place mark o).diagnostics = ctx.diagnostics := by
  obtain ⟨_, h⟩ := leave_eq ctx name place mark o; rw [h]

theorem afterCheck_eq (ctx : Context V) (location : String) (converted : List (Token V))
    (o : Outcome V) :
    ∃ diagnostics, ctx.afterCheck location converted o = { ctx with diagnostics } := by
  unfold afterCheck
  split <;> exact ⟨_, rfl⟩

@[simp] theorem afterCheck_depth (ctx : Context V) :
    (ctx.afterCheck location converted o).depth = ctx.depth := by
  obtain ⟨_, h⟩ := afterCheck_eq ctx location converted o; rw [h]

@[simp] theorem afterCheck_config (ctx : Context V) :
    (ctx.afterCheck location converted o).config = ctx.config := by
  obtain ⟨_, h⟩ := afterCheck_eq ctx location converted o; rw [h]

@[simp] theorem afterCheck_failures (ctx : Context V) :
    (ctx.afterCheck location converted o).failures = ctx.failures := by
  obtain ⟨_, h⟩ := afterCheck_eq ctx location converted o; rw [h]

@[simp] theorem afterCheck_diagnostics (ctx : Context V) :
    (ctx.afterCheck location converted o).diagnostics.toList =
      ctx.diagnostics.toList ++ (Event.ofCheck location converted o).filterMap Event.reported? := by
  unfold afterCheck Event.ofCheck
  split
  · simp [report, Event.reported?]
  · simp

end

end Context

-- ---------------------------------------------------------------------------
-- Runs
-- ---------------------------------------------------------------------------

variable {V : Type} [TokenValue V] {rules : Rules V}

theorem Runs.depth (h : Runs rules a ctx x ctx' es) : ctx'.depth = ctx.depth := by
  induction h with
  | done => rfl
  | call _ _ ihParse ih => exact ih.trans ihParse
  | refused _ _ ih => exact ih
  | guarded gate _ _ ihInside ih =>
    rw [ih, Context.leave_depth, ihInside, Context.enter?_depth gate, Nat.add_sub_cancel]
  | client _ _ ihInside ih => exact ih.trans ihInside
  | askMode _ ih | logFailure _ ih | report _ ih | clearPartials _ ih | keepPartials _ ih
  | unchecked _ _ ih | configure _ ih => exact ih
  | checked _ _ _ _ ih => rw [ih, Context.afterCheck_depth]

theorem Runs.failures (h : Runs rules a ctx x ctx' es) :
    ctx'.failures.toList = ctx.failures.toList ++ es.filterMap Event.logged? := by
  induction h with
  | done => simp
  | call _ _ ihParse ih => simp [ih, ihParse]
  | refused _ _ ih => simpa [Event.logged?, List.filterMap_cons] using ih
  | guarded gate _ _ ihInside ih =>
    simp [ih, ihInside, Context.enter?_failures gate, Event.logged?, List.filterMap_cons]
  | client _ _ ihInside ih => simp [ih, ihInside, Event.logged?, List.filterMap_cons]
  | askMode _ ih | clearPartials _ ih | keepPartials _ ih | unchecked _ _ ih
  | configure _ ih => exact ih
  | logFailure _ ih => simpa [Context.logFailure, Event.logged?, List.filterMap_cons] using ih
  | report _ ih => simpa [Context.report, Event.logged?, List.filterMap_cons] using ih
  | checked _ _ _ _ ih => simp [ih]

theorem Runs.diagnostics (h : Runs rules a ctx x ctx' es) :
    ctx'.diagnostics.toList = ctx.diagnostics.toList ++ es.filterMap Event.reported? := by
  induction h with
  | done => simp
  | call _ _ ihParse ih => simp [ih, ihParse]
  | refused _ _ ih => simpa [Event.reported?, List.filterMap_cons] using ih
  | guarded gate _ _ ihInside ih =>
    simp [ih, ihInside, Context.enter?_diagnostics gate, Event.reported?, List.filterMap_cons]
  | client _ _ ihInside ih => simp [ih, ihInside, Event.reported?, List.filterMap_cons]
  | askMode _ ih | clearPartials _ ih | keepPartials _ ih | unchecked _ _ ih
  | configure _ ih => exact ih
  | logFailure _ ih => simpa [Context.logFailure, Event.reported?, List.filterMap_cons] using ih
  | report _ ih => simpa [Context.report, Event.reported?, List.filterMap_cons] using ih
  | checked _ _ _ _ ih => simp [ih]

/-- What the changes that author's code makes keep of the options holds after a run. -/
theorem Runs.options {G : Grammar V} {I : Config → Prop}
    (hclients : ∀ p ∈ G, p.Clients (·.Changes fun change => ∀ config, I config → I (change config)))
    (h : Runs G.rules a ctx x ctx' es) (ha : a.Only (fun _ => True) (· ∈ G))
    (hchanges : a.Changes fun change => ∀ config, I config → I (change config))
    (hctx : I ctx.config) : I ctx'.config := by
  induction h with
  | done => exact hctx
  | call _ _ ihParse ih =>
    exact ih (ha.2 _) (hchanges _)
      (ihParse (Grammar.calls_only ha.1 _) (Parser.body_changes (hclients _ ha.1) _) hctx)
  | refused _ _ ih => exact ih (ha.2 _) (hchanges.2 _) hctx
  | guarded gate _ _ ihInside ih =>
    refine ih (ha.2 _) (hchanges.2 _) ?_
    rw [Context.leave_config]
    exact ihInside ha.1 hchanges.1 (by rwa [Context.enter?_config gate])
  | client _ _ ihInside ih => exact ih (ha.2 _) (hchanges.2 _) (ihInside ha.1 hchanges.1 hctx)
  | askMode _ ih => exact ih (ha.2 _) (hchanges _) hctx
  | logFailure _ ih | report _ ih | clearPartials _ ih | keepPartials _ ih =>
    exact ih ha.2 hchanges hctx
  | unchecked _ _ ih => exact ih ha.2.2 hchanges hctx
  | checked _ _ _ _ ih => exact ih ha.2.2 hchanges (by rwa [Context.afterCheck_config])
  | configure _ ih => exact ih ha.2 hchanges.2 (hchanges.1 _ hctx)

theorem Runs.config {G : Grammar V} (hclients : ∀ p ∈ G, p.Clients Action.KeepsOptions)
    (h : Runs G.rules a ctx x ctx' es) (ha : a.Only (· ≠ .options) (· ∈ G)) :
    ctx'.config = ctx.config := by
  have hkeep : ∀ p ∈ G, p.Clients (·.Changes fun change =>
      ∀ config, config = ctx.config → change config = ctx.config) :=
    fun p hp => (hclients p hp).mono fun _ hcode => hcode.changes (by simp)
  exact h.options (I := (· = ctx.config)) hkeep (ha.mono (fun _ _ => trivial) fun _ hq => hq)
    (ha.changes (by simp)) rfl

end TokenGrammar
