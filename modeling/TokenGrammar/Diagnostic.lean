import TokenGrammar.Position

/-!
# Findings about a grammar

What a parse reports about the grammar itself. A finding never changes an outcome.
-/

namespace TokenGrammar

inductive Diagnostic
  /-- The first matching alternative was taken where the longest match is another.
  Alternatives count from one. -/
  | reorder (location : String) (pos : Option Position)
      (chosen chosenConsumed longest longestConsumed : Nat)
  /-- A parser read its own converted output and produced that output again. -/
  | transformLoop (pos : Option Position) (message : String)
  deriving DecidableEq, Repr

namespace Diagnostic

def reproduction (location : String) (pos : Option Position) : Diagnostic :=
  .transformLoop pos ("potential infinite loop in transformation at " ++ location ++
    " - parser produces same result when applied to transformed tokens")

def render : Diagnostic → String
  | reorder location pos chosen chosenConsumed longest longestConsumed =>
    "Or parser optimization suggestion at " ++ location ++ " (parser position " ++
      Position.renderOpt pos ++ "): Fast mode chose option " ++ toString chosen ++
      " (consumed " ++ toString chosenConsumed ++
      " tokens), but longest match would choose option " ++ toString longest ++
      " (consumed " ++ toString longestConsumed ++
      " tokens). For Fast mode compatibility, consider moving option " ++ toString longest ++
      " before option " ++ toString chosen ++ "."
  | transformLoop pos message =>
    "Transformation safety check failed at " ++ Position.renderOpt pos ++ ": " ++ message

end Diagnostic

end TokenGrammar
