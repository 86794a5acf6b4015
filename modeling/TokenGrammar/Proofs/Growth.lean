import TokenGrammar.Value
import TokenGrammar.Proofs.Frame

/-!
# How a context grows in a parse

A parse gives the depth back, only adds to the trace and to the two logs, and touches
nothing else but what is kept of a failed sequence (`Context.Grows`). The trace is the
one of them that is also rewritten: a traced parser turns the latest record into
another, but only where that record is its own. Under a limit on depth the guard lets
nothing in beyond the limit and refuses nowhere else than at it (`Event.WithinLimit`).
-/

namespace TokenGrammar

variable {V : Type}

namespace Context

theorem enter?_traces {ctx entered : Context V} (h : ctx.enter? name place = .ok entered) :
    entered.traces = if ctx.config.tracing then
      ctx.traces.push ⟨.enter, ctx.depth, name, place, ""⟩ else ctx.traces := by
  unfold enter? deepen? at h
  split at h
  · cases h
  · simp only [bind, Except.bind, pure, Except.pure, Except.ok.injEq] at h
    subst h
    split <;> rfl

section
variable [TokenValue V]

theorem recordOutcome_traces {ctx : Context V} (htracing : ctx.config.tracing = true)
    (name : String) (place : Option Position) (mark : Nat) (o : Outcome V) :
    ∃ r, (ctx.recordOutcome name place mark o).traces =
      (if ctx.traces.size = mark then ctx.traces.pop else ctx.traces).push r := by
  unfold recordOutcome
  rw [if_pos htracing]
  by_cases halone : ctx.traces.size = mark
  · rw [if_pos halone, beq_iff_eq.2 halone]
    cases hlast : ctx.traces.back? with
    | some last => exact ⟨_, rfl⟩
    | none =>
      have hempty : ctx.traces = #[] := by simpa using hlast
      exact ⟨⟨.ending false o.isMatch, ctx.depth - 1, name, place, o.render⟩,
        by simp [hempty, record]⟩
  · rw [if_neg halone, beq_eq_false_iff_ne.2 halone]
    exact ⟨_, rfl⟩

theorem traces_prefix_leave {ctx entered ctx₁ : Context V}
    (gate : ctx.enter? name place = .ok entered) (hconfig : ctx₁.config = entered.config)
    (hgrows : entered.traces.toList <+: ctx₁.traces.toList) (o : Outcome V) :
    ctx.traces.toList <+: (ctx₁.leave name place entered.traces.size o).traces.toList := by
  have hentered := enter?_traces gate
  have hsame : ctx₁.config.tracing = ctx.config.tracing := by rw [hconfig, enter?_config gate]
  unfold leave rise
  cases hon : ctx.config.tracing with
  | false =>
    rw [hon] at hsame hentered
    simpa [recordOutcome, hsame, hentered] using hgrows
  | true =>
    rw [hon] at hsame hentered
    simp only [if_true] at hentered
    obtain ⟨r, hr⟩ := recordOutcome_traces hsame name place entered.traces.size o
    simp only [hr, Array.toList_push]
    split
    · next hsize =>
      -- Nothing was recorded inside, so the record that gives way is the one of the way in.
      have heq : entered.traces = ctx₁.traces := Array.toList_inj.1 (hgrows.eq_of_length hsize.symm)
      rw [← heq, hentered, Array.pop_push]
      exact List.prefix_append ..
    · rw [hentered, Array.toList_push] at hgrows
      exact ((List.prefix_append ..).trans hgrows).trans (List.prefix_append ..)

end

end Context

-- ---------------------------------------------------------------------------
-- What a run adds
-- ---------------------------------------------------------------------------

/-- Whether `ctx'` is `ctx` with additions to the trace and to the logs alone. What is
kept of a failed sequence is left open. -/
structure Context.Grows (ctx ctx' : Context V) : Prop where
  depth : ctx'.depth = ctx.depth
  config : ctx'.config = ctx.config
  tokens : ctx'.tokens = ctx.tokens
  pos : ctx'.pos = ctx.pos
  remained : ctx'.remained = ctx.remained
  results : ctx'.results = ctx.results
  traces : ctx.traces.toList <+: ctx'.traces.toList
  failures : ctx.failures.toList <+: ctx'.failures.toList
  diagnostics : ctx.diagnostics.toList <+: ctx'.diagnostics.toList

def Context.evaluated (ctx : Context V) : List (Token V) × Nat × List (Token V) × List (Token V) :=
  (ctx.tokens, ctx.pos, ctx.remained, ctx.results)

theorem Context.enter?_evaluated {ctx entered : Context V}
    (h : ctx.enter? name place = .ok entered) : entered.evaluated = ctx.evaluated := by
  obtain ⟨-, _, rfl⟩ := Context.enter?_ok h
  rfl

variable [TokenValue V] {rules : Rules V} {G : Grammar V}

@[simp] theorem Context.leave_evaluated (ctx : Context V) :
    (ctx.leave name place mark o).evaluated = ctx.evaluated := by
  obtain ⟨_, h⟩ := Context.leave_eq ctx name place mark o
  rw [h]
  rfl

@[simp] theorem Context.afterCheck_evaluated (ctx : Context V) :
    (ctx.afterCheck location converted o).evaluated = ctx.evaluated := by
  obtain ⟨_, h⟩ := Context.afterCheck_eq ctx location converted o
  rw [h]
  rfl

@[simp] theorem Context.afterCheck_traces (ctx : Context V) :
    (ctx.afterCheck location converted o).traces = ctx.traces := by
  obtain ⟨_, h⟩ := Context.afterCheck_eq ctx location converted o
  rw [h]

theorem Runs.evaluated (h : Runs rules a ctx x ctx' es) : ctx'.evaluated = ctx.evaluated := by
  induction h with
  | done => rfl
  | call _ _ ihParse ih => exact ih.trans ihParse
  | refused _ _ ih => exact ih
  | guarded gate _ _ ihInside ih =>
    rw [ih, Context.leave_evaluated, ihInside, Context.enter?_evaluated gate]
  | client _ _ ihInside ih => exact ih.trans ihInside
  | askMode _ ih | logFailure _ ih | report _ ih | clearPartials _ ih | keepPartials _ ih
  | unchecked _ _ ih | configure _ ih => exact ih
  | checked _ _ _ _ ih => rw [ih, Context.afterCheck_evaluated]

section
variable (hclients : ∀ p ∈ G, p.Clients Action.KeepsOptions)
include hclients

theorem Runs.traces (h : Runs G.rules a ctx x ctx' es) (ha : a.Only (· ≠ .options) (· ∈ G)) :
    ctx.traces.toList <+: ctx'.traces.toList := by
  induction h with
  | done => exact List.prefix_refl _
  | call _ _ ihParse ih =>
    exact (ihParse (Grammar.body_only ha.1 (hclients _ ha.1) _)).trans (ih (ha.2 _))
  | refused _ _ ih => exact ih (ha.2 _)
  | guarded gate inside _ ihInside ih =>
    exact (Context.traces_prefix_leave gate (inside.config hclients ha.1) (ihInside ha.1) _).trans
      (ih (ha.2 _))
  | client _ _ ihInside ih => exact (ihInside ha.1).trans (ih (ha.2 _))
  | askMode _ ih => exact ih (ha.2 _)
  | logFailure _ ih | report _ ih | clearPartials _ ih | keepPartials _ ih => exact ih ha.2
  | unchecked _ _ ih => exact ih ha.2.2
  | checked _ _ _ _ ih => simpa using ih ha.2.2
  | configure _ _ => exact absurd rfl ha.1

theorem Runs.grows (h : Runs G.rules a ctx x ctx' es) (ha : a.Only (· ≠ .options) (· ∈ G)) :
    ctx.Grows ctx' := by
  have hevaluated := h.evaluated
  simp only [Context.evaluated, Prod.mk.injEq] at hevaluated
  obtain ⟨htokens, hpos, hremained, hresults⟩ := hevaluated
  exact {
    depth := h.depth
    config := h.config hclients ha
    tokens := htokens
    pos := hpos
    remained := hremained
    results := hresults
    traces := h.traces hclients ha
    failures := h.failures ▸ List.prefix_append ..
    diagnostics := h.diagnostics ▸ List.prefix_append .. }

end

-- ---------------------------------------------------------------------------
-- Under a limit on depth
-- ---------------------------------------------------------------------------

/-- Whether an event is none where the guard lets a region in beyond `limit`, or
refuses one elsewhere than at it. -/
def Event.WithinLimit (limit : Nat) : Event V → Prop
  | entered depth => depth ≤ limit
  | refused failure => ∃ place, failure = .stackOverflow limit limit place
  | within e | scratch e => e.WithinLimit limit
  | _ => True

omit [TokenValue V] in
theorem Event.withinLimit_span {p : Parser V} (h : ∀ e ∈ es, e.WithinLimit limit) :
    ∀ e ∈ span p input o es, e.WithinLimit limit :=
  Event.forall_mem_span.2 ⟨trivial, h, trivial⟩

theorem Event.withinLimit_ofCheck {o : Outcome V} :
    ∀ e ∈ Event.ofCheck location converted o, e.WithinLimit limit := by
  unfold Event.ofCheck
  split
  · exact List.forall_mem_singleton.2 trivial
  · exact nofun

structure Context.Under (limit : Nat) (ctx : Context V) : Prop where
  maxDepth : ctx.config.maxDepth = limit
  depth : ctx.depth ≤ limit

section
variable (hclients : ∀ p ∈ G, p.Clients Action.KeepsOptions)
include hclients

theorem Runs.under (h : Runs G.rules a ctx x ctx' es) (ha : a.Only (· ≠ .options) (· ∈ G))
    (hctx : ctx.Under limit) : ctx'.Under limit :=
  ⟨by rw [h.config hclients ha, hctx.maxDepth], h.depth.symm ▸ hctx.depth⟩

theorem Runs.withinLimit (hlimit : 0 < limit) (h : Runs G.rules a ctx x ctx' es)
    (ha : a.Only (· ≠ .options) (· ∈ G)) (hctx : ctx.Under limit) :
    ∀ e ∈ es, e.WithinLimit limit := by
  induction h with
  | done => exact nofun
  | call parse _ ihParse ih =>
    have hbody := Grammar.body_only ha.1 (hclients _ ha.1)
    exact List.forall_mem_append.2 ⟨Event.withinLimit_span (ihParse (hbody _) hctx),
      ih (ha.2 _) (parse.under hclients (hbody _) hctx)⟩
  | refused gate _ ih =>
    refine List.forall_mem_cons.2 ⟨?_, ih (ha.2 _) hctx⟩
    obtain ⟨⟨-, hreached⟩, rfl⟩ := Context.enter?_error gate
    have hdepth := hctx.depth
    rw [hctx.maxDepth] at hreached ⊢
    exact ⟨_, by rw [Nat.le_antisymm hdepth hreached]⟩
  | guarded gate inside _ ihInside ih =>
    have hentered : Context.Under limit _ :=
      ⟨by rw [Context.enter?_config gate, hctx.maxDepth], by
        have hbelow := (Context.enter?_ok gate).1
        rw [Context.AtLimit, hctx.maxDepth] at hbelow
        rw [Context.enter?_depth gate]
        omega⟩
    have hleft := inside.under hclients ha.1 hentered
    refine List.forall_mem_cons.2 ⟨hentered.depth, List.forall_mem_append.2
      ⟨ihInside ha.1 hentered, ih (ha.2 _) ⟨by simpa using hleft.maxDepth, ?_⟩⟩⟩
    rw [Context.leave_depth]
    exact Nat.le_trans (Nat.sub_le ..) hleft.depth
  | client inside _ ihInside ih =>
    exact List.forall_mem_cons.2 ⟨trivial, List.forall_mem_append.2
      ⟨List.forall_mem_map.2 (ihInside ha.1 hctx), List.forall_mem_cons.2
        ⟨trivial, ih (ha.2 _) (inside.under hclients ha.1 hctx)⟩⟩⟩
  | askMode _ ih => exact ih (ha.2 _) hctx
  | logFailure _ ih | report _ ih =>
    exact List.forall_mem_cons.2 ⟨trivial, ih ha.2 ⟨hctx.maxDepth, hctx.depth⟩⟩
  | clearPartials _ ih | keepPartials _ ih => exact ih ha.2 ⟨hctx.maxDepth, hctx.depth⟩
  | unchecked _ _ ih => exact ih ha.2.2 hctx
  | checked _ _ _ ihParse ih =>
    have hbody := Grammar.body_only ha.2.1 (hclients _ ha.2.1)
    exact List.forall_mem_append.2 ⟨List.forall_mem_append.2
      ⟨List.forall_mem_map.2 (Event.withinLimit_span (ihParse (hbody _)
        ⟨hctx.maxDepth, Nat.zero_le _⟩)), Event.withinLimit_ofCheck⟩,
      ih ha.2.2 ⟨by simpa using hctx.maxDepth, by simpa using hctx.depth⟩⟩
  | configure _ _ => exact absurd rfl ha.1

end

/-- Where the code of a grammar's author leaves the options alone, all that a parse
changes of its context is what it adds to the trace and to the logs, and what is kept of
a failed sequence. If it starts within a limit on depth, it never passes the limit, and
the guard refuses at the limit alone. -/
theorem Grammar.parse_grows (hclients : ∀ p ∈ G, p.Clients Action.KeepsOptions) (hp : p ∈ G)
    (h : Parses G.rules p input ctx o ctx' es) :
    ctx.Grows ctx' ∧
      (0 < ctx.config.maxDepth → ctx.depth ≤ ctx.config.maxDepth →
        ∀ e ∈ es, e.WithinLimit ctx.config.maxDepth) := by
  have honly : (Action.parse p input).Only (· ≠ .options) (· ∈ G) := ⟨hp, fun _ => trivial⟩
  have hrun := parses_iff.2 h
  exact ⟨hrun.grows hclients honly,
    fun hlimit hdepth => hrun.withinLimit hclients hlimit honly ⟨rfl, hdepth⟩⟩

def circling : Grammar Int64 :=
  .ofList (fun rule => if rule = 0 then some (.seq "sum" [.ref "sum" 0]) else none)
    [.ref "sum" 0, .seq "sum" [.ref "sum" 0]]
    (by simp [Parser.parts])
    (by simp [Parser.Clients])

/-- The rule is refused at the limit, and the trace of what went before is kept. -/
theorem circling_parse_grows : ∃ p ∈ circling, ∃ ctx : Context Int64,
    ctx.config.maxDepth = 2 ∧ ctx.traces.size = 1 ∧
    ∃ o ctx' es, Parses circling.rules p [] ctx o ctx' es ∧
      .refused (.stackOverflow 2 2 none) ∈ es ∧ ctx'.traces.size = 4 ∧
      ctx.Grows ctx' ∧ ∀ e ∈ es, e.WithinLimit 2 := by
  have hclients : ∀ p ∈ circling, p.Clients Action.KeepsOptions :=
    List.forall_mem_cons.2 ⟨trivial, List.forall_mem_singleton.2 trivial⟩
  have hp : .ref "sum" 0 ∈ circling := List.mem_cons_self
  let ctx : Context Int64 := (Context.ofConfig ⟨2, true, .safe, false⟩).record
    ⟨.enter, 0, "before", none, ""⟩
  obtain ⟨o, ctx', es, h, hrefused, hsize⟩ : ∃ o ctx' es,
      Parses circling.rules (.ref "sum" 0) [] ctx o ctx' es ∧
        .refused (.stackOverflow 2 2 none) ∈ es ∧ ctx'.traces.size = 4 :=
    ⟨_, _, _, ⟨_, .guarded rfl (.call (.guarded rfl (.clearPartials <|
      .call (show Runs _ _ _ _ _ [.refused (.stackOverflow 2 2 none)] from .refused rfl .done)
        (.keepPartials .done)) .done) .done) .done, rfl⟩, by simp [Event.span], rfl⟩
  obtain ⟨hgrows, hlimit⟩ := Grammar.parse_grows hclients hp h
  exact ⟨_, hp, ctx, rfl, rfl, o, ctx', es, h, hrefused, hsize, hgrows,
    hlimit (by decide) (by decide)⟩

end TokenGrammar
