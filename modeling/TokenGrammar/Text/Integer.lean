/-!
# Integers in text

A decimal integer of 64 bits with an optional sign, read as a whole text.
-/

namespace TokenGrammar.Text

def int64? (n : Int) : Option Int64 :=
  if Int64.minValue.toInt ≤ n ∧ n ≤ Int64.maxValue.toInt then some (Int64.ofInt n) else none

def digit? (c : Char) : Option Nat :=
  if '0' ≤ c ∧ c ≤ '9' then some (c.toNat - '0'.toNat) else none

def digits? (text : List Char) : Option Nat :=
  if text.isEmpty then none
  else text.foldlM (fun n c => (digit? c).map (10 * n + ·)) 0

/-- The integer that a text stands for: an optional sign, then digits alone. -/
def readInt64? (text : String) : Option Int64 :=
  match text.toList with
  | '-' :: digits => digits? digits >>= fun n => int64? (-(n : Int))
  | '+' :: digits => digits? digits >>= fun n => int64? n
  | digits => digits? digits >>= fun n => int64? n

end TokenGrammar.Text
