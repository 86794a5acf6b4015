import TokenGrammar.Evaluation
import TokenGrammar.Proofs.Runs

/-!
# What an evaluation leaves

An evaluation is one parse from a fresh context, and what `settle` and `finish` make of it
(`Parser.evaluate_eq_some_iff`). A failure of the parser is logged after all that was
logged on the way.
-/

namespace TokenGrammar

theorem Failure.orAt_none (f : Failure) : f.orAt none = f := by
  cases f with
  | single fault pos => cases pos <;> rfl
  | joined members pos => cases pos <;> rfl

namespace Context

variable {V : Type} (ctx : Context V) (tokens : List (Token V)) (m : Match V)

@[simp] theorem finish_pos : (ctx.finish tokens m).pos = min m.consumed tokens.length := rfl

@[simp] theorem finish_remained :
    (ctx.finish tokens m).remained = tokens.drop (min m.consumed tokens.length) := rfl

@[simp] theorem finish_results : (ctx.finish tokens m).results = m.produced := rfl

@[simp] theorem finish_depth : (ctx.finish tokens m).depth = ctx.depth := rfl

@[simp] theorem finish_failures : (ctx.finish tokens m).failures = ctx.failures := rfl

end Context

namespace Parser

variable {V : Type} [TokenValue V] {rules : Rules V} {p : Parser V} {tokens : List (Token V)}
  {ctx ended : Context V}

theorem evaluate_eq_some_iff : evaluate rules n p tokens ctx = some (answer, ended) ↔
    ∃ o ctx', run rules n p tokens ctx.reset = some (o, ctx') ∧
      ended = (ctx'.settle o).2.finish tokens (ctx'.settle o).1 ∧ answer = ended.answer := by
  rw [evaluate]
  cases run rules n p tokens ctx.reset with
  | none => simp
  | some r =>
    obtain ⟨o, ctx'⟩ := r
    simp only [Option.bind_eq_bind, Option.bind_some, Option.pure_def, Option.some.injEq,
      Prod.mk.injEq]
    constructor
    · rintro ⟨rfl, rfl⟩
      exact ⟨o, ctx', ⟨rfl, rfl⟩, rfl, rfl⟩
    · rintro ⟨_, _, ⟨rfl, rfl⟩, rfl, rfl⟩
      exact ⟨rfl, rfl⟩

theorem evaluate_isSome :
    (evaluate rules n p tokens ctx).isSome = (run rules n p tokens ctx.reset).isSome := by
  rw [evaluate]
  cases run rules n p tokens ctx.reset <;> rfl

theorem evaluate_of_error {ctx' : Context V}
    (hrun : run rules n p tokens ctx.reset = some (.error f, ctx')) :
    evaluate rules n p tokens ctx = some (.error (.join (ctx'.failures.toList ++ [f]) none),
      { ctx'.finish tokens ⟨0, ctx'.partials⟩ with
        failures := ctx'.failures.push f, partials := [] }) := by
  refine evaluate_eq_some_iff.2 ⟨_, _, hrun, ?_, ?_⟩
  · simp [Context.settle, Context.finish, Context.logFailure, Failure.orAt_none]
  · simp [Context.answer, Context.failure?]

end Parser

end TokenGrammar
