import TokenGrammar.Parser.Run

/-!
# Evaluation

An evaluation resets the context, runs one parser over the input, and leaves in the
context what was consumed, produced and left over. It succeeds with the produced
values when nothing was logged; a failure of the parser itself is logged too.
-/

namespace TokenGrammar.Context

variable {V : Type}

/-- How an evaluation takes up the outcome of its parser. After a failure nothing
counts as consumed, and what the failing sequence had produced is the result. -/
def settle (ctx : Context V) : Outcome V → Match V × Context V
  | .ok m => (m, ctx)
  | .error failure =>
    (⟨0, ctx.partials⟩, { ctx.logFailure failure none with partials := [] })

def finish (ctx : Context V) (tokens : List (Token V)) (m : Match V) : Context V :=
  let consumed := min m.consumed tokens.length
  { ctx with
    pos := consumed, remained := tokens.drop consumed, tokens, results := m.produced }

def answer (ctx : Context V) : Except Failure (List V) :=
  match ctx.failure? with
  | some failure => .error failure
  | none => .ok (ctx.results.map (·.val))

end TokenGrammar.Context

namespace TokenGrammar.Parser

variable {V : Type} [TokenValue V]

def evaluate (rules : Rules V) (nesting : Nat) (parser : Parser V) (tokens : List (Token V))
    (ctx : Context V) : Option (Except Failure (List V) × Context V) := do
  let (outcome, ctx) ← run rules nesting parser tokens ctx.reset
  let (m, ctx) := ctx.settle outcome
  let ctx := ctx.finish tokens m
  return (ctx.answer, ctx)

def evaluateTexts (rules : Rules V) (nesting : Nat) (parser : Parser V) (texts : List String)
    (ctx : Context V) : Option (Except Failure (List V) × Context V) :=
  evaluate rules nesting parser (Token.ofTexts texts) ctx

end TokenGrammar.Parser
