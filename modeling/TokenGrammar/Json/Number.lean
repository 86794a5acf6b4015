import TokenGrammar.Decimal.Layout
import TokenGrammar.Json.Scan

/-!
# Numbers in a JSON text

A number without a point and without an exponent that fits 64 bits is an integer. All
others are floats: the digits that fit a 64-bit number, scaled by a power of ten in
the arithmetic of doubles. Minus zero is a float.
-/

namespace TokenGrammar.Json

inductive Number
  | integer (n : Int)
  | float (x : Float)

namespace Number

/-- Floats are written by place from `1e-5` up to below `1e16`, and else with an
exponent of as many digits as it has. -/
def floatLayout : Decimal.Layout := ⟨-5, 15, 1⟩

def absorb (n : Nat) : List Nat → Nat × List Nat
  | [] => (n, [])
  | d :: ds => if 10 * n + d < UInt64.size then absorb (10 * n + d) ds else (n, d :: ds)

def powerOfTen (e : Nat) : Float := Float.ofScientific 1 false e

/-- `f * 10 ^ e` in steps that keep the power a double, unless it is too large. -/
def scale (f : Float) (e : Int) : Option Float :=
  if e < -308 then if f == 0 then some f else scale (f / powerOfTen 308) (e + 308)
  else if e < 0 then some (f / powerOfTen e.natAbs)
  else if e ≤ 308 then
    let product := f * powerOfTen e.natAbs
    if product.isInf then none else some product
  else if f == 0 then some f else none
termination_by (-e).toNat

def floatOf (negative : Bool) (significand : Nat) (e : Int) : Except Problem Number :=
  match scale (UInt64.ofNat significand).toFloat e with
  | some f => .ok (float (if negative then -f else f))
  | none => .error .malformed

def whole (negative : Bool) (significand : Nat) : Number :=
  if negative then
    if significand = 0 ∨ (Text.int64? (-significand)).isNone then
      float (-(UInt64.ofNat significand).toFloat)
    else integer (-significand)
  else integer significand

def readSomeDigits : Reader (List Nat) := fun input =>
  match readDigits input with
  | ([], []) => .error .endsEarly
  | ([], _ :: _) => .error .malformed
  | (digits, rest) => .ok (digits, rest)

def isExponentMark (s : Symbol) : Bool := s = .char 'e' || s = .char 'E'

def readExponent : Reader Int := fun input => do
  let (sign, input) := match input with
    | .char '+' :: rest => (1, rest)
    | .char '-' :: rest => (-1, rest)
    | _ => ((1 : Int), input)
  let (digits, rest) ← readSomeDigits input
  return (sign * (digits.foldl (10 * · + ·) 0 : Nat), rest)

/-- The rest of a float after its digits, which make up `significand * 10 ^ e`. -/
def readScale (negative : Bool) (significand : Nat) (e : Int) : Reader Number := fun input =>
  match input with
  | s :: rest =>
    if isExponentMark s then do
      let (exponent, rest) ← readExponent rest
      return (← floatOf negative significand (e + exponent), rest)
    else do return (← floatOf negative significand e, input)
  | [] => do return (← floatOf negative significand e, [])

def readAfterWhole (negative : Bool) (significand : Nat) (left : List Nat) : Reader Number :=
  fun input =>
    match input with
    | .char '.' :: rest => do
      let (fraction, rest) ← readSomeDigits rest
      let (significand, unused) := absorb significand fraction
      readScale negative significand (left.length - (fraction.length - unused.length : Nat)) rest
    | s :: _ =>
      if isExponentMark s || !left.isEmpty then readScale negative significand left.length input
      else .ok (whole negative significand, input)
    | [] =>
      if left.isEmpty then .ok (whole negative significand, [])
      else readScale negative significand left.length []

/-- A number after its sign. A leading zero stands alone. -/
def readUnsigned (negative : Bool) : Reader Number := fun input => do
  match ← readSomeDigits input with
  | (0 :: _ :: _, _) => throw .malformed
  | (digits, rest) =>
    let (significand, left) := absorb 0 digits
    readAfterWhole negative significand left rest

def starts (s : Symbol) : Bool := s = .char '-' || s.digit?.isSome

def read : Reader Number := fun input =>
  match input with
  | .char '-' :: rest => readUnsigned true rest
  | _ => readUnsigned false input

/-! ## Numbers that are passed over -/

def skipDigits : Skipper := fun input =>
  match readDigits input with
  | ([], _) => .error .malformed
  | (_, rest) => .ok rest

def skipExponent : Skipper := fun input =>
  match input with
  | s :: rest =>
    if isExponentMark s then
      match rest with
      | .char '+' :: rest => skipDigits rest
      | .char '-' :: rest => skipDigits rest
      | _ => skipDigits rest
    else .ok input
  | [] => .ok []

/-- Passes over a number after its sign. It may be of any size; one that breaks off is
malformed. -/
def skipUnsigned : Skipper := fun input =>
  match readDigits input with
  | ([], _) => .error .malformed
  | (0 :: _ :: _, _) => .error .malformed
  | (_, .char '.' :: rest) => skipDigits rest >>= skipExponent
  | (_, rest) => skipExponent rest

def skip : Skipper := fun input =>
  match input with
  | .char '-' :: rest => skipUnsigned rest
  | _ => skipUnsigned input

end Number

end TokenGrammar.Json
