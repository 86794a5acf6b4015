import TokenGrammar.Context

/-!
# Actions

The steps that a parser may take over a context. An action is data: it ends with an
answer, calls a parser of type `P`, or does one thing to the context and goes on.
What is not among the steps cannot happen. In particular no action reads a log, and
depth only changes around a step that is `guarded`.

`Action.exec` runs an action, given the meaning of a call.
-/

namespace TokenGrammar

inductive Action (P : Type 1) (V : Type) : Type → Type 1
  | done {α : Type} (answer : α) : Action P V α
  /-- Parses `input` with another parser. -/
  | call {α : Type} (parser : P) (input : List (Token V))
      (next : Outcome V → Action P V α) : Action P V α
  /-- Goes through the depth guard, and is traced under `name`. -/
  | guarded {α : Type} (name : String) (input : List (Token V))
      (inner : Action P V (Outcome V)) (next : Outcome V → Action P V α) : Action P V α
  /-- Runs code of the grammar's author, which ends with a failure or with a result. -/
  | client {α γ : Type} (code : Action P V (Except Failure γ))
      (next : Except Failure γ → Action P V α) : Action P V α
  | askMode {α : Type} (next : ChoiceMode → Action P V α) : Action P V α
  /-- Logs a failure, at `fallback` if it has no place. -/
  | logFailure {α : Type} (failure : Failure) (fallback : Option Position)
      (next : Action P V α) : Action P V α
  | report {α : Type} (diagnostic : Diagnostic) (next : Action P V α) : Action P V α
  /-- Forgets what was kept of a failed sequence. -/
  | clearPartials {α : Type} (next : Action P V α) : Action P V α
  /-- Keeps what a failing sequence produced, before what its failed part kept. -/
  | keepPartials {α : Type} (produced : List (Token V)) (next : Action P V α) : Action P V α
  /-- Where conversions are checked: reports if `parser` reads all of `converted` and
  produces it again. -/
  | checkReproduction {α : Type} (parser : P) (location : String)
      (converted : List (Token V)) (next : Action P V α) : Action P V α
  | configure {α : Type} (change : Config → Config) (next : Action P V α) : Action P V α

namespace Action

variable {P : Type 1} {V : Type} {α β : Type}

protected def bind {α β : Type} : Action P V α → (α → Action P V β) → Action P V β
  | .done answer, f => f answer
  | .call parser input next, f => .call parser input fun o => (next o).bind f
  | .guarded name input inner next, f =>
    .guarded name input inner fun o => (next o).bind f
  | .client code next, f => .client code fun result => (next result).bind f
  | .askMode next, f => .askMode fun mode => (next mode).bind f
  | .logFailure failure fallback next, f => .logFailure failure fallback (next.bind f)
  | .report diagnostic next, f => .report diagnostic (next.bind f)
  | .clearPartials next, f => .clearPartials (next.bind f)
  | .keepPartials produced next, f => .keepPartials produced (next.bind f)
  | .checkReproduction parser location converted next, f =>
    .checkReproduction parser location converted (next.bind f)
  | .configure change next, f => .configure change (next.bind f)

instance : Monad (Action P V) where
  pure := .done
  bind := Action.bind

def parse (parser : P) (input : List (Token V)) : Action P V (Outcome V) :=
  .call parser input .done

def traced (name : String) (input : List (Token V)) (inner : Action P V (Outcome V)) :
    Action P V (Outcome V) :=
  .guarded name input inner .done

def failWith (failure : Failure) : Action P V (Outcome V) := .done (.error failure)

def succeed (m : Match V) : Action P V (Outcome V) := .done (.ok m)

def reproduces [TokenValue V] (tokens : List (Token V)) : Outcome V → Bool
  | .ok m => m.consumed == tokens.length && decide (m.produced = tokens)
  | .error _ => false

/-- The meaning of a call: the outcome and the context it leaves, or nothing if it
does not come to an end. -/
abbrev Callee (P : Type 1) (V : Type) :=
  P → List (Token V) → Context V → Option (Outcome V × Context V)

/-- Runs an action. There is no answer when a call on the way does not end. -/
def exec [TokenValue V] (callee : Callee P V) :
    {α : Type} → Action P V α → Context V → Option (α × Context V)
  | _, .done answer, ctx => some (answer, ctx)
  | _, .call parser input next, ctx =>
    match callee parser input ctx with
    | none => none
    | some (outcome, ctx) => (next outcome).exec callee ctx
  | _, .guarded name input inner next, ctx =>
    match ctx.enter? name (firstPos input) with
    | .error refusal => (next (.error refusal)).exec callee ctx
    | .ok entered =>
      let mark := entered.traces.size
      match inner.exec callee entered with
      | none => none
      | some (outcome, ctx) =>
        (next outcome).exec callee (ctx.leave name (firstPos input) mark outcome)
  | _, .client code next, ctx =>
    match code.exec callee ctx with
    | none => none
    | some (result, ctx) => (next result).exec callee ctx
  | _, .askMode next, ctx => (next ctx.config.choiceMode).exec callee ctx
  | _, .logFailure failure fallback next, ctx => next.exec callee (ctx.logFailure failure fallback)
  | _, .report diagnostic next, ctx => next.exec callee (ctx.report diagnostic)
  | _, .clearPartials next, ctx => next.exec callee { ctx with partials := [] }
  | _, .keepPartials produced next, ctx =>
    next.exec callee { ctx with partials := produced ++ ctx.partials }
  | _, .checkReproduction parser location converted next, ctx =>
    if ctx.checksTransforms && !converted.isEmpty then
      match callee parser converted ctx.scratch with
      | none => none
      | some (outcome, _) =>
        if reproduces converted outcome then
          next.exec callee (ctx.report (.reproduction location (firstPos converted)))
        else next.exec callee ctx
    else next.exec callee ctx
  | _, .configure change next, ctx => next.exec callee (ctx.configure change)

@[simp] theorem bind_done (a : Action P V α) : a.bind .done = a := by
  induction a with
  | done => rfl
  | call p input next ih => simp only [Action.bind, ih]
  | guarded name input region next _ ih => simp only [Action.bind, ih]
  | client code next _ ih => simp only [Action.bind, ih]
  | askMode next ih => simp only [Action.bind, ih]
  | logFailure _ _ next ih | report _ next ih | clearPartials next ih | keepPartials _ next ih
  | checkReproduction _ _ _ next ih | configure _ next ih => simp only [Action.bind, ih]

theorem bind_assoc {γ : Type} (a : Action P V α) (f : α → Action P V β) (g : β → Action P V γ) :
    (a.bind f).bind g = a.bind fun x => (f x).bind g := by
  induction a with
  | done => rfl
  | call p input next ih => simp only [Action.bind, ih]
  | guarded name input region next _ ih => simp only [Action.bind, ih]
  | client code next _ ih => simp only [Action.bind, ih]
  | askMode next ih => simp only [Action.bind, ih]
  | logFailure _ _ next ih | report _ next ih | clearPartials next ih | keepPartials _ next ih
  | checkReproduction _ _ _ next ih | configure _ next ih => simp only [Action.bind, ih]

def Callee.Le (callee callee' : Callee P V) : Prop :=
  ∀ parser input ctx result, callee parser input ctx = some result →
    callee' parser input ctx = some result

theorem exec_le [TokenValue V] {callee callee' : Callee P V} (hle : callee.Le callee')
    (action : Action P V α) {ctx : Context V} {result : α × Context V}
    (h : action.exec callee ctx = some result) : action.exec callee' ctx = some result := by
  induction action generalizing ctx with
  | done answer => exact h
  | call parser input next ih =>
    simp only [exec] at h ⊢
    split at h
    · contradiction
    · next hcall => rw [hle _ _ _ _ hcall]; exact ih _ h
  | guarded name input inner next ihInner ih =>
    simp only [exec] at h ⊢
    split at h
    · exact ih _ h
    · split at h
      · contradiction
      · next hinner => rw [ihInner hinner]; exact ih _ h
  | client code next ihCode ih =>
    simp only [exec] at h ⊢
    split at h
    · contradiction
    · next hcode => rw [ihCode hcode]; exact ih _ h
  | askMode next ih => exact ih _ h
  | logFailure failure fallback next ih => exact ih h
  | report diagnostic next ih => exact ih h
  | clearPartials next ih => exact ih h
  | keepPartials produced next ih => exact ih h
  | checkReproduction parser location converted next ih =>
    simp only [exec] at h ⊢
    split at h
    · next hchecks =>
      rw [if_pos hchecks]
      split at h
      · contradiction
      · next hcall =>
        rw [hle _ _ _ _ hcall]
        simp only
        split at h
        · next hloop => rw [if_pos hloop]; exact ih h
        · next hloop => rw [if_neg hloop]; exact ih h
    · next hchecks => rw [if_neg hchecks]; exact ih h
  | configure change next ih => exact ih h

end Action

end TokenGrammar
