import TokenGrammar.Leaf
import TokenGrammar.Proofs.Termination

/-!
# Logs never influence a parse

A parse depends on the limit on depth, the mode of choice and the depth of its
context, and on nothing else in it: two runs of one action from contexts that agree
on these three give one answer, log the same failures and report the same
reorderings (`Runs.alike`).
-/

namespace TokenGrammar

def Diagnostic.isReorder : Diagnostic → Bool
  | reorder .. => true
  | transformLoop .. => false

/-- What a parse depends on in its context. -/
structure Context.Alike {V : Type} (ctx₁ ctx₂ : Context V) : Prop where
  maxDepth : ctx₁.config.maxDepth = ctx₂.config.maxDepth
  choiceMode : ctx₁.config.choiceMode = ctx₂.config.choiceMode
  depth : ctx₁.depth = ctx₂.depth

namespace Context.Alike

variable {V : Type} {ctx₁ ctx₂ : Context V}

theorem symm (h : ctx₁.Alike ctx₂) : ctx₂.Alike ctx₁ :=
  ⟨h.maxDepth.symm, h.choiceMode.symm, h.depth.symm⟩

theorem refused (h : ctx₁.Alike ctx₂) (h₁ : ctx₁.enter? name place = .error refusal₁)
    (h₂ : ctx₂.enter? name place = .error refusal₂) : refusal₁ = refusal₂ :=
  Except.error.inj ((enter?_error_congr h.maxDepth h.depth h₁).symm.trans h₂)

theorem not_refused (h : ctx₁.Alike ctx₂) (h₁ : ctx₁.enter? name place = .error refusal)
    (h₂ : ctx₂.enter? name place = .ok entered) : False :=
  nomatch (enter?_error_congr h.maxDepth h.depth h₁).symm.trans h₂

theorem enter (h : ctx₁.Alike ctx₂) (h₁ : ctx₁.enter? name place = .ok entered₁)
    (h₂ : ctx₂.enter? name place = .ok entered₂) : entered₁.Alike entered₂ := by
  refine ⟨?_, ?_, ?_⟩
  · rw [enter?_config h₁, enter?_config h₂, h.maxDepth]
  · rw [enter?_config h₁, enter?_config h₂, h.choiceMode]
  · rw [enter?_depth h₁, enter?_depth h₂, h.depth]

theorem logFailure (h : ctx₁.Alike ctx₂) (failure : Failure) (fallback : Option Position) :
    (ctx₁.logFailure failure fallback).Alike (ctx₂.logFailure failure fallback) :=
  ⟨h.maxDepth, h.choiceMode, h.depth⟩

theorem report (h : ctx₁.Alike ctx₂) (diagnostic : Diagnostic) :
    (ctx₁.report diagnostic).Alike (ctx₂.report diagnostic) :=
  ⟨h.maxDepth, h.choiceMode, h.depth⟩

theorem withPartials (h : ctx₁.Alike ctx₂) (partials₁ partials₂ : List (Token V)) :
    { ctx₁ with partials := partials₁ }.Alike { ctx₂ with partials := partials₂ } :=
  ⟨h.maxDepth, h.choiceMode, h.depth⟩

variable [TokenValue V]

theorem leave (h : ctx₁.Alike ctx₂) :
    (ctx₁.leave name place mark₁ o).Alike (ctx₂.leave name place mark₂ o) := by
  refine ⟨?_, ?_, ?_⟩ <;> simp [h.maxDepth, h.choiceMode, h.depth]

theorem afterCheck (h : ctx₁.Alike ctx₂) : (ctx₁.afterCheck location converted o).Alike ctx₂ := by
  refine ⟨?_, ?_, ?_⟩ <;> simp [h.maxDepth, h.choiceMode, h.depth]

end Context.Alike

variable {V : Type}

def Event.reorders (es : List (Event V)) : List Diagnostic :=
  (es.filterMap reported?).filter Diagnostic.isReorder

@[simp] theorem Event.reorders_append (es es' : List (Event V)) :
    reorders (es ++ es') = reorders es ++ reorders es' := by
  simp only [reorders, List.filterMap_append, List.filter_append]

@[simp] theorem Event.reorders_span (p : Parser V) (input : List (Token V)) (o : Outcome V)
    (es : List (Event V)) : reorders (span p input o es) = reorders es := by
  rw [reorders, reported?_span, reorders]

@[simp] theorem Event.reorders_map_within (es : List (Event V)) :
    reorders (es.map within) = reorders es := by
  rw [reorders, reported?_map_within, reorders]

@[simp] theorem Event.reorders_map_scratch (es : List (Event V)) :
    reorders (es.map scratch) = [] := by
  rw [reorders, reported?_map_scratch, List.filter_nil]

@[simp] theorem Event.reorders_ofCheck [TokenValue V] (location : String)
    (converted : List (Token V)) (o : Outcome V) :
    reorders (ofCheck location converted o) = [] := by
  unfold ofCheck
  split <;> rfl

structure SameRun (x₁ x₂ : α) (ctx₁ ctx₂ : Context V) (es₁ es₂ : List (Event V)) : Prop where
  answer : x₁ = x₂
  contexts : ctx₁.Alike ctx₂
  logged : es₁.filterMap Event.logged? = es₂.filterMap Event.logged?
  reorders : Event.reorders es₁ = Event.reorders es₂

namespace SameRun

variable {c₁ c₂ : Context V}

theorem after (h : SameRun x₁ x₂ c₁ c₂ es₁ es₂)
    (hlogged : first₁.filterMap Event.logged? = first₂.filterMap Event.logged?)
    (hreorders : Event.reorders first₁ = Event.reorders first₂) :
    SameRun x₁ x₂ c₁ c₂ (first₁ ++ es₁) (first₂ ++ es₂) :=
  ⟨h.answer, h.contexts, by simp only [List.filterMap_append, hlogged, h.logged],
    by rw [Event.reorders_append, Event.reorders_append, hreorders, h.reorders]⟩

theorem cons (h : SameRun x₁ x₂ c₁ c₂ es₁ es₂) (hlogged : e₁.logged? = e₂.logged?)
    (hreported : e₁.reported? = e₂.reported?) :
    SameRun x₁ x₂ c₁ c₂ (e₁ :: es₁) (e₂ :: es₂) := by
  rw [← List.singleton_append, ← List.singleton_append (l := es₂)]
  refine h.after ?_ ?_
  · simp only [List.filterMap_cons, hlogged]
  · simp only [Event.reorders, List.filterMap_cons, hreported]

end SameRun

variable [TokenValue V]

theorem Runs.alike {G : Grammar V} (hclients : ∀ p ∈ G, p.Clients Action.KeepsOptions)
    (h₁ : Runs G.rules a ctx₁ x₁ c₁ es₁) (ha : a.Only (· ≠ .options) (· ∈ G))
    (h : ctx₁.Alike ctx₂) (h₂ : Runs G.rules a ctx₂ x₂ c₂ es₂) :
    SameRun x₁ x₂ c₁ c₂ es₁ es₂ := by
  induction h₁ generalizing ctx₂ c₂ es₂ with
  | done => cases h₂; exact ⟨rfl, h, rfl, rfl⟩
  | call _ _ ihParse ih =>
    cases h₂ with
    | call parse₂ rest₂ =>
      have hparse := ihParse (Grammar.body_only ha.1 (hclients _ ha.1) _) h parse₂
      obtain rfl := hparse.answer
      have hrest := ih (ha.2 _) hparse.contexts rest₂
      exact hrest.after (by simp [hparse.logged]) (by simp [hparse.reorders])
  | refused gate _ ih =>
    cases h₂ with
    | refused gate₂ rest₂ =>
      obtain rfl := h.refused gate gate₂
      exact (ih (ha.2 _) h rest₂).cons rfl rfl
    | guarded gate₂ _ _ => exact (h.not_refused gate gate₂).elim
  | guarded gate _ _ ihInside ih =>
    cases h₂ with
    | refused gate₂ _ => exact (h.symm.not_refused gate₂ gate).elim
    | guarded gate₂ inside₂ rest₂ =>
      have hinside := ihInside ha.1 (h.enter gate gate₂) inside₂
      obtain rfl := hinside.answer
      have hrest := ih (ha.2 _) hinside.contexts.leave rest₂
      exact (hrest.after hinside.logged hinside.reorders).cons rfl rfl
  | client _ _ ihInside ih =>
    cases h₂ with
    | client inside₂ rest₂ =>
      have hinside := ihInside ha.1 h inside₂
      obtain rfl := hinside.answer
      have hrest := ih (ha.2 _) hinside.contexts rest₂
      refine SameRun.cons (SameRun.after (SameRun.cons hrest rfl rfl) ?_ ?_) rfl rfl
      · simp [hinside.logged]
      · simp [hinside.reorders]
  | askMode _ ih =>
    cases h₂ with
    | askMode rest₂ => exact ih (ha.2 _) h (h.choiceMode ▸ rest₂)
  | logFailure _ ih =>
    cases h₂ with
    | logFailure rest₂ => exact (ih ha.2 (h.logFailure _ _) rest₂).cons rfl rfl
  | report _ ih =>
    cases h₂ with
    | report rest₂ => exact (ih ha.2 (h.report _) rest₂).cons rfl rfl
  | clearPartials _ ih =>
    cases h₂ with
    | clearPartials rest₂ => exact ih ha.2 (h.withPartials _ _) rest₂
  | keepPartials _ ih =>
    cases h₂ with
    | keepPartials rest₂ => exact ih ha.2 (h.withPartials _ _) rest₂
  | unchecked _ _ ih =>
    cases h₂ with
    | unchecked _ rest₂ => exact ih ha.2.2 h rest₂
    | checked _ _ rest₂ =>
      have hrest := ih ha.2.2 h.symm.afterCheck.symm rest₂
      exact ⟨hrest.answer, hrest.contexts, by simp [hrest.logged],
        by simp [hrest.reorders]⟩
  | checked _ _ _ _ ih =>
    cases h₂ with
    | unchecked _ rest₂ =>
      have hrest := ih ha.2.2 h.afterCheck rest₂
      exact ⟨hrest.answer, hrest.contexts, by simp [hrest.logged],
        by simp [hrest.reorders]⟩
    | checked _ _ rest₂ =>
      have hrest := ih ha.2.2 h.afterCheck.symm.afterCheck.symm rest₂
      exact hrest.after (by simp) (by simp)
  | configure _ _ => exact absurd rfl ha.1

/-- Where the code of a grammar's author uses the context only through the depth guard
and the trace, two parses from like contexts have one outcome, log the same failures
and report the same reorderings. Under a limit on depth both end. -/
theorem Grammar.parse_of_alike {G : Grammar V} (hclients : ∀ p ∈ G, p.Clients Action.Plain)
    (hp : p ∈ G) (input : List (Token V)) (h : ctx₁.Alike ctx₂) :
    (∀ n₁ n₂ o₁ o₂ ctx₁' ctx₂', Parser.run G.rules n₁ p input ctx₁ = some (o₁, ctx₁') →
      Parser.run G.rules n₂ p input ctx₂ = some (o₂, ctx₂') →
      o₁ = o₂ ∧ ∃ failures diagnostics₁ diagnostics₂,
        ctx₁'.failures.toList = ctx₁.failures.toList ++ failures ∧
        ctx₂'.failures.toList = ctx₂.failures.toList ++ failures ∧
        ctx₁'.diagnostics.toList = ctx₁.diagnostics.toList ++ diagnostics₁ ∧
        ctx₂'.diagnostics.toList = ctx₂.diagnostics.toList ++ diagnostics₂ ∧
        diagnostics₁.filter Diagnostic.isReorder = diagnostics₂.filter Diagnostic.isReorder) ∧
    (0 < ctx₁.config.maxDepth → (∃ n, (Parser.run G.rules n p input ctx₁).isSome) ∧
      ∃ n, (Parser.run G.rules n p input ctx₂).isSome) := by
  have hkeep : ∀ p ∈ G, p.Clients Action.KeepsOptions :=
    fun p hp => (hclients p hp).mono fun _ => Action.Plain.keepsOptions
  constructor
  · intro n₁ n₂ o₁ o₂ ctx₁' ctx₂' hrun₁ hrun₂
    obtain ⟨es₁, h₁⟩ := runs_of_run hrun₁
    obtain ⟨es₂, h₂⟩ := runs_of_run hrun₂
    have hsame := h₁.alike hkeep (Grammar.body_only hp (hkeep p hp) input) h h₂
    refine ⟨hsame.answer, es₁.filterMap Event.logged?, es₁.filterMap Event.reported?,
      es₂.filterMap Event.reported?, h₁.failures, ?_, h₁.diagnostics, h₂.diagnostics, ?_⟩
    · rw [h₂.failures, hsame.logged]
    · exact hsame.reorders
  · have hends : ∀ ctx : Context V, 0 < ctx.config.maxDepth →
        ∃ n, (Parser.run G.rules n p input ctx).isSome := by
      intro ctx hlimit
      obtain ⟨o, ctx', es, hparse⟩ := Grammar.ends_of_limit hkeep hp input hlimit
      obtain ⟨n, hn⟩ := parses_iff_run.1 ⟨es, hparse⟩
      exact ⟨n, by rw [hn]; rfl⟩
    intro hlimit
    exact ⟨hends ctx₁ hlimit, hends ctx₂ (h.maxDepth ▸ hlimit)⟩

def oneOrTwo : Grammar Int64 :=
  .ofList (fun _ => none)
    [.oneOf "here" [Leaf.any, .seq "two" [Leaf.any, Leaf.any]],
      .seq "two" [Leaf.any, Leaf.any], Leaf.any]
    (by simp [Parser.parts, Parser.oneOf, Leaf.any, Leaf.tracedPlain])
    (by simp [Parser.Clients, Parser.oneOf, Leaf.any, Leaf.tracedPlain, Action.traced,
      Action.Only])

/-- A context with logs and one without end a parse alike. -/
theorem oneOrTwo_parse_of_alike :
    ∃ p ∈ oneOrTwo, ∃ n₁ n₂ o ctx₁ ctx₂,
      Parser.run oneOrTwo.rules n₁ p (Token.ofTexts ["a", "b"])
        (.ofConfig ⟨5, false, .tryFast, false⟩) = some (o, ctx₁) ∧
      Parser.run oneOrTwo.rules n₂ p (Token.ofTexts ["a", "b"])
        { Context.ofConfig ⟨5, true, .tryFast, true⟩ with
          failures := #[.critical "old" none], pos := 3 } = some (o, ctx₂) := by
  have hclients : ∀ p ∈ oneOrTwo, p.Clients Action.Plain := by
    simp [oneOrTwo, Parser.Clients, Parser.oneOf, Leaf.any, Leaf.tracedPlain, Action.traced,
      Action.Plain, Action.Only]
  have hp : .oneOf "here" [Leaf.any, .seq "two" [Leaf.any, Leaf.any]] ∈ oneOrTwo :=
    List.mem_cons_self
  have hctx : (Context.ofConfig ⟨5, false, .tryFast, false⟩).Alike
      { Context.ofConfig (V := Int64) ⟨5, true, .tryFast, true⟩ with
        failures := #[.critical "old" none], pos := 3 } := ⟨rfl, rfl, rfl⟩
  obtain ⟨halike, hends⟩ :=
    Grammar.parse_of_alike hclients hp (Token.ofTexts ["a", "b"]) hctx
  obtain ⟨⟨n₁, h₁⟩, n₂, h₂⟩ := hends (by decide)
  obtain ⟨⟨o₁, ctx₁⟩, h₁⟩ := Option.isSome_iff_exists.1 h₁
  obtain ⟨⟨o₂, ctx₂⟩, h₂⟩ := Option.isSome_iff_exists.1 h₂
  obtain ⟨rfl, -⟩ := halike _ _ _ _ _ _ h₁ h₂
  exact ⟨_, hp, n₁, n₂, o₁, ctx₁, ctx₂, h₁, h₂⟩

end TokenGrammar
