import TokenGrammar.Token
import TokenGrammar.Text.Integer
import TokenGrammar.Text.Quoted

/-!
# Values of tokens

Two value types for grammars that calculate: 64-bit integers, and texts that stand
for the calculation itself.
-/

namespace TokenGrammar

inductive Operator
  | add
  | subtract
  | multiply
  | divide
  deriving DecidableEq, Repr

namespace Operator

def symbol : Operator → String
  | add => "+"
  | subtract => "-"
  | multiply => "*"
  | divide => "/"

def ofSymbol? (text : String) : Option Operator :=
  [add, subtract, multiply, divide].find? (·.symbol == text)

/-- The exact result; a quotient is cut off towards zero. -/
def onInt : Operator → Int → Int → Option Int
  | add, a, b => some (a + b)
  | subtract, a, b => some (a - b)
  | multiply, a, b => some (a * b)
  | divide, a, b => if b = 0 then none else some (a.tdiv b)

end Operator

/-- Values that leaf parsers read and conversions calculate with. -/
class Calculable (V : Type) extends TokenValue V where
  ofInteger : Int64 → V
  ofCount : Nat → V
  successor : V → V
  /-- The sum of several values from left to right, if every step has a value. -/
  sum? : List V → Option V
  calculate? : Operator → V → V → Option V

/-- Integers of 64 bits; a result out of range is none, except that the successor
wraps around. -/
instance : Calculable Int64 where
  blank := 0
  decEq := inferInstance
  render n := toString n.toInt
  ofInteger n := n
  ofCount n := Int64.ofNat n
  successor n := n + 1
  sum? values := values.foldlM (fun a b => Text.int64? (a.toInt + b.toInt)) 0
  calculate? op a b := op.onInt a.toInt b.toInt >>= Text.int64?

/-- Texts; an operation writes itself down in parentheses. -/
instance : Calculable String where
  blank := ""
  decEq := inferInstance
  render := Text.quote
  ofInteger n := toString n.toInt
  ofCount n := toString n
  successor text := text ++ "'"
  sum? values := some (String.join values)
  calculate? op a b := some ("(" ++ a ++ " " ++ op.symbol ++ " " ++ b ++ ")")

end TokenGrammar
