import TokenGrammar.Parser.Run

/-!
# Runs and their events

`Runs` relates an action and a context to the answer, the context left and the
events on the way, in order. It has one rule for each thing a step can do and sets
no bound on nested calls: `parses_iff_run` says that it is what `Parser.run`
computes under a large enough bound.

What happens inside the code of the grammar's author, and inside the check of a
conversion, is kept apart in the events by `within` and `scratch`.
-/

namespace TokenGrammar

inductive Event (V : Type) : Type 1
  /-- A parser is called. -/
  | started (parser : Parser V) (input : List (Token V))
  | ended (parser : Parser V) (input : List (Token V)) (outcome : Outcome V)
  /-- The depth guard lets a region in, which runs at `depth`. -/
  | entered (depth : Nat)
  | refused (failure : Failure)
  /-- Code of the grammar's author is run. -/
  | invoked
  /-- That code ends, perhaps with a failure. -/
  | answered (failure? : Option Failure)
  | logged (failure : Failure)
  | reported (diagnostic : Diagnostic)
  /-- Something that happens while code of the grammar's author runs. -/
  | within (event : Event V)
  /-- Something that happens while a conversion is checked, in a context of its own. -/
  | scratch (event : Event V)

namespace Event

variable {V : Type}

def span (parser : Parser V) (input : List (Token V)) (outcome : Outcome V)
    (nested : List (Event V)) : List (Event V) :=
  started parser input :: (nested ++ [ended parser input outcome])

theorem forall_mem_span {φ : Event V → Prop} : (∀ e ∈ span parser input outcome nested, φ e) ↔
    φ (started parser input) ∧ (∀ e ∈ nested, φ e) ∧ φ (ended parser input outcome) := by
  simp [span, or_imp, forall_and]

def failed? : Event V → Option Failure
  | ended _ _ (.error failure) => some failure
  | within event | scratch event => event.failed?
  | _ => none

def failure? {γ : Type} : Except Failure γ → Option Failure
  | .ok _ => none
  | .error failure => some failure

theorem failure?_eq_some {r : Except Failure γ} : failure? r = some f ↔ r = .error f := by
  cases r <;> simp [failure?]

end Event

def Context.afterCheck {V : Type} [TokenValue V] (ctx : Context V) (location : String)
    (converted : List (Token V)) (outcome : Outcome V) : Context V :=
  if Action.reproduces converted outcome then
    ctx.report (.reproduction location (firstPos converted))
  else ctx

def Event.ofCheck {V : Type} [TokenValue V] (location : String) (converted : List (Token V))
    (outcome : Outcome V) : List (Event V) :=
  if Action.reproduces converted outcome then
    [.reported (.reproduction location (firstPos converted))]
  else []

abbrev Context.Checks {V : Type} (ctx : Context V) (converted : List (Token V)) : Prop :=
  (ctx.checksTransforms && !converted.isEmpty) = true

variable {V : Type} [TokenValue V]

inductive Runs (rules : Rules V) : {α : Type} → Action (Parser V) V α → Context V → α →
    Context V → List (Event V) → Prop
  | done : Runs rules (.done x) ctx x ctx []
  | call (parse : Runs rules (p.body rules input) ctx o ctx₁ nested)
      (rest : Runs rules (next o) ctx₁ x ctx₂ es) :
      Runs rules (.call p input next) ctx x ctx₂ (Event.span p input o nested ++ es)
  | refused (gate : ctx.enter? name (firstPos input) = .error refusal)
      (rest : Runs rules (next (.error refusal)) ctx x ctx₁ es) :
      Runs rules (.guarded name input region next) ctx x ctx₁ (.refused refusal :: es)
  | guarded (gate : ctx.enter? name (firstPos input) = .ok entered)
      (inside : Runs rules region entered o ctx₁ nested)
      (rest : Runs rules (next o) (ctx₁.leave name (firstPos input) entered.traces.size o)
        x ctx₂ es) :
      Runs rules (.guarded name input region next) ctx x ctx₂
        (.entered entered.depth :: (nested ++ es))
  | client (inside : Runs rules code ctx result ctx₁ nested)
      (rest : Runs rules (next result) ctx₁ x ctx₂ es) :
      Runs rules (.client code next) ctx x ctx₂
        (.invoked :: (nested.map .within ++ .answered (Event.failure? result) :: es))
  | askMode (rest : Runs rules (next ctx.config.choiceMode) ctx x ctx₁ es) :
      Runs rules (.askMode next) ctx x ctx₁ es
  | logFailure {failure : Failure}
      (rest : Runs rules next (ctx.logFailure failure fallback) x ctx₁ es) :
      Runs rules (.logFailure failure fallback next) ctx x ctx₁
        (.logged (failure.orAt fallback) :: es)
  | report (rest : Runs rules next (ctx.report diagnostic) x ctx₁ es) :
      Runs rules (.report diagnostic next) ctx x ctx₁ (.reported diagnostic :: es)
  | clearPartials (rest : Runs rules next { ctx with partials := [] } x ctx₁ es) :
      Runs rules (.clearPartials next) ctx x ctx₁ es
  | keepPartials
      (rest : Runs rules next { ctx with partials := produced ++ ctx.partials } x ctx₁ es) :
      Runs rules (.keepPartials produced next) ctx x ctx₁ es
  | unchecked (off : ¬ ctx.Checks converted) (rest : Runs rules next ctx x ctx₁ es) :
      Runs rules (.checkReproduction p location converted next) ctx x ctx₁ es
  | checked (on : ctx.Checks converted)
      (parse : Runs rules (p.body rules converted) ctx.scratch o scratch nested)
      (rest : Runs rules next (ctx.afterCheck location converted o) x ctx₁ es) :
      Runs rules (.checkReproduction p location converted next) ctx x ctx₁
        ((Event.span p converted o nested).map .scratch ++ Event.ofCheck location converted o ++ es)
  | configure (rest : Runs rules next (ctx.configure change) x ctx₁ es) :
      Runs rules (.configure change next) ctx x ctx₁ es

/-- A whole parse, with the call itself among its events. -/
def Parses (rules : Rules V) (p : Parser V) (input : List (Token V)) (ctx : Context V)
    (o : Outcome V) (ctx' : Context V) (es : List (Event V)) : Prop :=
  ∃ nested, Runs rules (p.body rules input) ctx o ctx' nested ∧ es = Event.span p input o nested

variable {rules : Rules V}

@[simp] theorem runs_done :
    Runs rules (.done x) ctx y ctx' es ↔ y = x ∧ ctx' = ctx ∧ es = [] := by
  constructor
  · intro h
    cases h
    exact ⟨rfl, rfl, rfl⟩
  · rintro ⟨rfl, rfl, rfl⟩
    exact .done

theorem Runs.of_call (h : Runs rules (.call p input next) ctx x ctx' es) :
    ∃ o ctx₁ nested es₁, Runs rules (p.body rules input) ctx o ctx₁ nested ∧
      Runs rules (next o) ctx₁ x ctx' es₁ ∧ es = Event.span p input o nested ++ es₁ := by
  cases h with
  | call parse rest => exact ⟨_, _, _, _, parse, rest, rfl⟩

theorem Runs.of_traced_ok {region : Action (Parser V) V (Outcome V)}
    (h : Runs rules (Action.traced name input region) ctx (.ok m) ctx' es) :
    ∃ entered ctx₁ nested, ctx.enter? name (firstPos input) = .ok entered ∧
      Runs rules region entered (.ok m) ctx₁ nested ∧
      ctx' = ctx₁.leave name (firstPos input) entered.traces.size (.ok m) := by
  cases h with
  | refused gate rest => cases rest
  | guarded gate inside rest =>
    obtain ⟨rfl, rfl, -⟩ := runs_done.1 rest
    exact ⟨_, _, _, gate, inside, rfl⟩

theorem parses_iff : Runs rules (Action.parse p input) ctx o ctx' es ↔
    Parses rules p input ctx o ctx' es := by
  constructor
  · intro h
    obtain ⟨_, _, nested, _, parse, rest, rfl⟩ := h.of_call
    obtain ⟨rfl, rfl, rfl⟩ := runs_done.1 rest
    exact ⟨nested, parse, List.append_nil _⟩
  · rintro ⟨nested, parse, rfl⟩
    rw [← List.append_nil (Event.span ..)]
    exact .call parse .done

theorem Runs.bind {f : α → Action (Parser V) V β} (h : Runs rules a ctx x ctx₁ es)
    (hf : Runs rules (f x) ctx₁ y ctx₂ es') : Runs rules (a.bind f) ctx y ctx₂ (es ++ es') := by
  induction h with
  | done => exact hf
  | call parse _ _ ih => rw [List.append_assoc]; exact .call parse (ih hf)
  | refused gate _ ih => exact .refused gate (ih hf)
  | guarded gate inside _ _ ih =>
    rw [List.cons_append, List.append_assoc]
    exact .guarded gate inside (ih hf)
  | client inside _ _ ih =>
    rw [List.cons_append, List.append_assoc]
    exact .client inside (ih hf)
  | askMode _ ih => exact .askMode (ih hf)
  | logFailure _ ih => exact .logFailure (ih hf)
  | report _ ih => exact .report (ih hf)
  | clearPartials _ ih => exact .clearPartials (ih hf)
  | keepPartials _ ih => exact .keepPartials (ih hf)
  | unchecked off _ ih => exact .unchecked off (ih hf)
  | checked on parse _ _ ih => rw [List.append_assoc]; exact .checked on parse (ih hf)
  | configure _ ih => exact .configure (ih hf)

theorem Runs.of_bind {a : Action (Parser V) V α} {f : α → Action (Parser V) V β}
    (h : Runs rules (a.bind f) ctx y ctx' es) :
    ∃ x ctx₁ es₁ es₂, Runs rules a ctx x ctx₁ es₁ ∧ Runs rules (f x) ctx₁ y ctx' es₂ ∧
      es = es₁ ++ es₂ := by
  induction a generalizing ctx es with
  | done x => exact ⟨x, ctx, [], es, .done, h, rfl⟩
  | call p input next ih =>
    cases h with
    | call parse rest =>
      obtain ⟨_, _, _, _, hfirst, hsecond, rfl⟩ := ih _ rest
      exact ⟨_, _, _, _, .call parse hfirst, hsecond, (List.append_assoc ..).symm⟩
  | guarded name input region next _ ih =>
    cases h with
    | refused gate rest =>
      obtain ⟨_, _, _, _, hfirst, hsecond, rfl⟩ := ih _ rest
      exact ⟨_, _, _, _, .refused gate hfirst, hsecond, rfl⟩
    | guarded gate inside rest =>
      obtain ⟨_, _, _, _, hfirst, hsecond, rfl⟩ := ih _ rest
      exact ⟨_, _, _, _, .guarded gate inside hfirst, hsecond, by simp⟩
  | client code next _ ih =>
    cases h with
    | client inside rest =>
      obtain ⟨_, _, _, _, hfirst, hsecond, rfl⟩ := ih _ rest
      exact ⟨_, _, _, _, .client inside hfirst, hsecond, by simp⟩
  | askMode next ih =>
    cases h with
    | askMode rest =>
      obtain ⟨_, _, _, _, hfirst, hsecond, rfl⟩ := ih _ rest
      exact ⟨_, _, _, _, .askMode hfirst, hsecond, rfl⟩
  | logFailure failure fallback next ih =>
    cases h with
    | logFailure rest =>
      obtain ⟨_, _, _, _, hfirst, hsecond, rfl⟩ := ih rest
      exact ⟨_, _, _, _, .logFailure hfirst, hsecond, rfl⟩
  | report diagnostic next ih =>
    cases h with
    | report rest =>
      obtain ⟨_, _, _, _, hfirst, hsecond, rfl⟩ := ih rest
      exact ⟨_, _, _, _, .report hfirst, hsecond, rfl⟩
  | clearPartials next ih =>
    cases h with
    | clearPartials rest =>
      obtain ⟨_, _, _, _, hfirst, hsecond, rfl⟩ := ih rest
      exact ⟨_, _, _, _, .clearPartials hfirst, hsecond, rfl⟩
  | keepPartials produced next ih =>
    cases h with
    | keepPartials rest =>
      obtain ⟨_, _, _, _, hfirst, hsecond, rfl⟩ := ih rest
      exact ⟨_, _, _, _, .keepPartials hfirst, hsecond, rfl⟩
  | checkReproduction p location converted next ih =>
    cases h with
    | unchecked off rest =>
      obtain ⟨_, _, _, _, hfirst, hsecond, rfl⟩ := ih rest
      exact ⟨_, _, _, _, .unchecked off hfirst, hsecond, rfl⟩
    | checked on parse rest =>
      obtain ⟨_, _, _, _, hfirst, hsecond, rfl⟩ := ih rest
      exact ⟨_, _, _, _, .checked on parse hfirst, hsecond, (List.append_assoc ..).symm⟩
  | configure change next ih =>
    cases h with
    | configure rest =>
      obtain ⟨_, _, _, _, hfirst, hsecond, rfl⟩ := ih rest
      exact ⟨_, _, _, _, .configure hfirst, hsecond, rfl⟩

-- ---------------------------------------------------------------------------
-- Runs and the evaluator
-- ---------------------------------------------------------------------------

theorem exec_afterCheck (next : Action (Parser V) V α) (callee : Action.Callee (Parser V) V) :
    (if Action.reproduces converted o then
        next.exec callee (ctx.report (.reproduction location (firstPos converted)))
      else next.exec callee ctx) = next.exec callee (ctx.afterCheck location converted o) := by
  unfold Context.afterCheck
  split <;> rfl

theorem runs_of_exec {callee : Action.Callee (Parser V) V}
    (hcallee : ∀ p input ctx o ctx', callee p input ctx = some (o, ctx') →
      ∃ es, Runs rules (p.body rules input) ctx o ctx' es)
    (a : Action (Parser V) V α) (h : a.exec callee ctx = some (x, ctx')) :
    ∃ es, Runs rules a ctx x ctx' es := by
  induction a generalizing ctx ctx' with
  | done answer => cases h; exact ⟨_, .done⟩
  | call p input next ih =>
    simp only [Action.exec] at h
    split at h
    · contradiction
    · next hcall =>
      obtain ⟨nested, hinner⟩ := hcallee _ _ _ _ _ hcall
      obtain ⟨es, hes⟩ := ih _ h
      exact ⟨_, .call hinner hes⟩
  | guarded name input region next ihRegion ih =>
    simp only [Action.exec] at h
    split at h
    · next hgate =>
      obtain ⟨es, hes⟩ := ih _ h
      exact ⟨_, .refused hgate hes⟩
    · next hgate =>
      split at h
      · contradiction
      · next hregion =>
        obtain ⟨nested, hinner⟩ := ihRegion hregion
        obtain ⟨es, hes⟩ := ih _ h
        exact ⟨_, .guarded hgate hinner hes⟩
  | client code next ihCode ih =>
    simp only [Action.exec] at h
    split at h
    · contradiction
    · next hcode =>
      obtain ⟨nested, hinner⟩ := ihCode hcode
      obtain ⟨es, hes⟩ := ih _ h
      exact ⟨_, .client hinner hes⟩
  | askMode next ih => obtain ⟨es, hes⟩ := ih _ h; exact ⟨_, .askMode hes⟩
  | logFailure failure fallback next ih => obtain ⟨es, hes⟩ := ih h; exact ⟨_, .logFailure hes⟩
  | report diagnostic next ih => obtain ⟨es, hes⟩ := ih h; exact ⟨_, .report hes⟩
  | clearPartials next ih => obtain ⟨es, hes⟩ := ih h; exact ⟨_, .clearPartials hes⟩
  | keepPartials produced next ih => obtain ⟨es, hes⟩ := ih h; exact ⟨_, .keepPartials hes⟩
  | checkReproduction p location converted next ih =>
    simp only [Action.exec, exec_afterCheck] at h
    split at h
    · next hon =>
      split at h
      · contradiction
      · next hcall =>
        obtain ⟨nested, hinner⟩ := hcallee _ _ _ _ _ hcall
        obtain ⟨es, hes⟩ := ih h
        exact ⟨_, .checked hon hinner hes⟩
    · next hoff => obtain ⟨es, hes⟩ := ih h; exact ⟨_, .unchecked hoff hes⟩
  | configure change next ih => obtain ⟨es, hes⟩ := ih h; exact ⟨_, .configure hes⟩

theorem runs_of_run (h : Parser.run rules n p input ctx = some (o, ctx')) :
    ∃ es, Runs rules (p.body rules input) ctx o ctx' es := by
  induction n generalizing p input ctx o ctx' with
  | zero => contradiction
  | succ n ih => exact runs_of_exec (fun _ _ _ _ _ => ih) _ h

theorem exec_max (rules : Rules V) {a : Action (Parser V) V α} {b : Action (Parser V) V β}
    (ha : a.exec (Parser.run rules m) ctx = some r)
    (hb : b.exec (Parser.run rules n) ctx₁ = some s) :
    ∃ k, a.exec (Parser.run rules k) ctx = some r ∧ b.exec (Parser.run rules k) ctx₁ = some s :=
  ⟨max m n, Action.exec_le (Parser.run_le rules (Nat.le_max_left m n)) a ha,
    Action.exec_le (Parser.run_le rules (Nat.le_max_right m n)) b hb⟩

theorem Runs.exec (h : Runs rules a ctx x ctx' es) :
    ∃ n, a.exec (Parser.run rules n) ctx = some (x, ctx') := by
  induction h with
  | done => exact ⟨0, rfl⟩
  | call _ _ ihParse ih =>
    obtain ⟨m, hm⟩ := ihParse
    obtain ⟨n, hn⟩ := ih
    obtain ⟨k, hk, hk'⟩ := exec_max rules hm hn
    refine ⟨k + 1, ?_⟩
    simp only [Action.exec, Parser.run_succ, hk]
    exact Action.exec_le (Parser.run_le_succ rules k) _ hk'
  | refused gate _ ih =>
    obtain ⟨n, hn⟩ := ih
    exact ⟨n, by simp only [Action.exec, gate, hn]⟩
  | guarded gate _ _ ihInside ih =>
    obtain ⟨m, hm⟩ := ihInside
    obtain ⟨n, hn⟩ := ih
    obtain ⟨k, hk, hk'⟩ := exec_max rules hm hn
    exact ⟨k, by simp only [Action.exec, gate, hk, hk']⟩
  | client _ _ ihInside ih =>
    obtain ⟨m, hm⟩ := ihInside
    obtain ⟨n, hn⟩ := ih
    obtain ⟨k, hk, hk'⟩ := exec_max rules hm hn
    exact ⟨k, by simp only [Action.exec, hk, hk']⟩
  | askMode _ ih | logFailure _ ih | report _ ih | clearPartials _ ih | keepPartials _ ih
  | configure _ ih => exact ih
  | unchecked off _ ih =>
    obtain ⟨n, hn⟩ := ih
    exact ⟨n, by rw [Action.exec, if_neg off, hn]⟩
  | checked on _ _ ihParse ih =>
    obtain ⟨m, hm⟩ := ihParse
    obtain ⟨n, hn⟩ := ih
    obtain ⟨k, hk, hk'⟩ := exec_max rules hm hn
    refine ⟨k + 1, ?_⟩
    rw [Action.exec, if_pos on]
    simp only [Parser.run_succ, hk, exec_afterCheck]
    exact Action.exec_le (Parser.run_le_succ rules k) _ hk'

/-- A parse is what the evaluator computes when it may nest calls deeply enough. -/
theorem parses_iff_run {p : Parser V} {input : List (Token V)}
    {ctx ctx' : Context V} {o : Outcome V} :
    (∃ es, Parses rules p input ctx o ctx' es) ↔
      ∃ n, Parser.run rules n p input ctx = some (o, ctx') := by
  constructor
  · rintro ⟨_, nested, h, -⟩
    obtain ⟨n, hn⟩ := h.exec
    exact ⟨n + 1, hn⟩
  · rintro ⟨n, hn⟩
    obtain ⟨nested, h⟩ := runs_of_run hn
    exact ⟨_, nested, h, rfl⟩

theorem Parser.run_unique {p : Parser V} (h : Parser.run rules m p input ctx = some r)
    (h' : Parser.run rules n p input ctx = some r') : r = r' := by
  have hmax := Parser.run_le rules (Nat.le_max_left m n) _ _ _ _ h
  rw [Parser.run_le rules (Nat.le_max_right m n) _ _ _ _ h'] at hmax
  exact (Option.some.inj hmax).symm

end TokenGrammar
