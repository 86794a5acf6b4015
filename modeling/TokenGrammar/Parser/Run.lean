import TokenGrammar.Parser.Meaning

/-!
# Running a parser

A grammar may call itself without end, so a run is bounded by how many calls may be
nested. A run that fits its bound has the same result under every larger one.
-/

namespace TokenGrammar.Parser

variable {V : Type} [TokenValue V]

/-- Runs a parser with at most `nesting` calls inside one another. Nothing comes back
when they do not suffice. -/
def run (rules : Rules V) : (nesting : Nat) → Action.Callee (Parser V) V
  | 0, _, _, _ => none
  | nesting + 1, parser, input, ctx => (parser.body rules input).exec (run rules nesting) ctx

theorem run_succ (rules : Rules V) (nesting : Nat) (parser : Parser V) (input : List (Token V))
    (ctx : Context V) : run rules (nesting + 1) parser input ctx =
      (parser.body rules input).exec (run rules nesting) ctx := rfl

theorem run_le_succ (rules : Rules V) (nesting : Nat) :
    Action.Callee.Le (run rules nesting) (run rules (nesting + 1)) := by
  induction nesting with
  | zero => intro _ _ _ _ h; contradiction
  | succ nesting ih => intro parser input ctx result h; exact Action.exec_le ih _ h

theorem run_le (rules : Rules V) {m n : Nat} (h : m ≤ n) :
    Action.Callee.Le (run rules m) (run rules n) := by
  induction h with
  | refl => exact fun _ _ _ _ h => h
  | step _ ih => exact fun parser input ctx result h =>
      run_le_succ rules _ parser input ctx result (ih parser input ctx result h)

end TokenGrammar.Parser
