import TokenGrammar.Json.Symbol
import TokenGrammar.Text.Quoted

/-!
# Why a text cannot be read

A text may end early, be no JSON, or be JSON of another shape than asked for. Only
the last has a message of its own.
-/

namespace TokenGrammar.Json

inductive Found
  | integer (n : Int)
  /-- A number that is no 64-bit integer, as it is written. -/
  | float (written : String)
  | boolean (b : Bool)
  | text (s : String)
  | null
  | sequence
  | map
  /-- A variant that carries nothing. -/
  | unitVariant
  deriving DecidableEq, Repr

inductive Mismatch
  | wrongType (found : Found) (expected : String)
  | outOfRange (n : Int) (expected : String)
  | missingField (name : String)
  | duplicateField (name : String)
  /-- An array that ends after `length` elements. -/
  | tooShort (length : Nat) (expected : String)
  | unknownVariant (name : String) (known : List String)
  deriving DecidableEq, Repr

inductive Problem
  | endsEarly
  | malformed
  | mismatch (m : Mismatch)
  deriving DecidableEq, Repr

namespace Found

def render : Found → String
  | integer n => "integer `" ++ toString n ++ "`"
  | float written => "floating point `" ++ written ++ "`"
  | boolean b => "boolean `" ++ (if b then "true" else "false") ++ "`"
  | text s => "string " ++ Text.quote s
  | null => "null"
  | sequence => "sequence"
  | map => "map"
  | unitVariant => "unit variant"

end Found

namespace Mismatch

def renderKnown (known : List String) : String :=
  match known.map fun name => "`" ++ name ++ "`" with
  | [] => "there are no variants"
  | [a] => "expected " ++ a
  | [a, b] => "expected " ++ a ++ " or " ++ b
  | names => "expected one of " ++ ", ".intercalate names

def message : Mismatch → String
  | wrongType found expected =>
    "invalid type: " ++ found.render ++ ", expected " ++ expected
  | outOfRange n expected =>
    "invalid value: " ++ (Found.integer n).render ++ ", expected " ++ expected
  | missingField name => "missing field `" ++ name ++ "`"
  | duplicateField name => "duplicate field `" ++ name ++ "`"
  | tooShort length expected =>
    "invalid length " ++ toString length ++ ", expected " ++ expected
  | unknownVariant name known => "unknown variant `" ++ name ++ "`, " ++ renderKnown known

end Mismatch

namespace Problem

def category : Problem → String
  | endsEarly => "eof"
  | malformed => "syntax"
  | mismatch _ => "data"

end Problem

/-- Takes a value from the front of a text and leaves the symbols after it. -/
abbrev Reader (α : Type) := List Symbol → Except Problem (α × List Symbol)

/-- Takes something without a value from the front of a text. -/
abbrev Skipper := List Symbol → Except Problem (List Symbol)

end TokenGrammar.Json
