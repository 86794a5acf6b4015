import TokenGrammar.Decimal.Shortest

/-!
# How a decimal is laid out

A decimal is written out by place where its size is moderate, and with an exponent
elsewhere.
-/

namespace TokenGrammar.Decimal

structure Layout where
  /-- The sizes, as exponents of ten, that are written out by place. -/
  least : Int
  greatest : Int
  /-- How many digits an exponent has at least. -/
  exponentWidth : Nat

def zeros (n : Nat) : String := String.ofList (List.replicate n '0')

def padded (width n : Nat) : String :=
  zeros (width - (toString n).length) ++ toString n

namespace Layout

/-- The digits written out by place, with at least one after the point. -/
def byPlace (digits : List Char) (exponent : Int) : String :=
  let whole := (digits.length + exponent).toNat
  if 0 ≤ exponent then String.ofList digits ++ zeros exponent.toNat ++ ".0"
  else if whole = 0 then
    "0." ++ zeros (-(digits.length + exponent)).toNat ++ String.ofList digits
  else String.ofList (digits.take whole) ++ "." ++ String.ofList (digits.drop whole)

def withExponent (layout : Layout) (digits : List Char) (size : Int) : String :=
  let fraction := if digits.length ≤ 1 then "" else "." ++ String.ofList (digits.drop 1)
  String.ofList (digits.take 1) ++ fraction ++ "e" ++ (if size < 0 then "-" else "+") ++
    padded layout.exponentWidth size.natAbs

def render (layout : Layout) (d : Decimal) : String :=
  let digits := (toString d.digits).toList
  let size := digits.length + d.exponent - 1
  if layout.least ≤ size ∧ size ≤ layout.greatest then byPlace digits d.exponent
  else layout.withExponent digits size

def renderFloat (layout : Layout) (x : Float) : String :=
  let (negative, size) := ofBits x.toBits
  let text := if size.mantissa = 0 then "0.0" else layout.render (shortest size)
  if negative then "-" ++ text else text

end Layout

end TokenGrammar.Decimal
