import TokenGrammar.Failure
import TokenGrammar.Token

/-!
# Outcomes of a parser

A parser matches or fails. A match counts the tokens it consumed, and may produce
other tokens in their place.
-/

namespace TokenGrammar

structure Match (V : Type) where
  consumed : Nat
  produced : List (Token V)
  deriving DecidableEq

namespace Match

variable {V : Type}

def nothing : Match V := ⟨0, []⟩

instance : Inhabited (Match V) := ⟨nothing⟩

def append (first second : Match V) : Match V :=
  ⟨first.consumed + second.consumed, first.produced ++ second.produced⟩

instance : Append (Match V) := ⟨append⟩

end Match

abbrev Outcome (V : Type) := Except Failure (Match V)

namespace Outcome

variable {V : Type}

def isMatch : Outcome V → Bool
  | .ok _ => true
  | .error _ => false

def render [TokenValue V] : Outcome V → String
  | .ok m => Token.renderValues m.produced
  | .error failure => failure.render

end Outcome

end TokenGrammar
