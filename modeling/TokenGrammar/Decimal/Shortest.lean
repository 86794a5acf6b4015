/-!
# The shortest decimal of a binary fraction

A positive binary floating-point number stands for all reals that round to it. Of the
decimals among these, `shortest` takes one on the coarsest grid of powers of ten, and
of two on that grid the nearer. All arithmetic is exact.
-/

namespace TokenGrammar

/-- `mantissa * 2 ^ exponent`. -/
structure Binary where
  mantissa : Nat
  exponent : Int
  deriving DecidableEq, Repr

/-- `digits * 10 ^ exponent`. -/
structure Decimal where
  digits : Nat
  exponent : Int
  deriving DecidableEq, Repr

namespace Decimal

def powRatio (base : Nat) (e : Int) : Nat × Nat :=
  if 0 ≤ e then (base.pow e.toNat, 1) else (1, base.pow (-e).toNat)

/-- A number with the reals that round to it, all in quarters of the last place. -/
structure Interval where
  lower : Nat
  value : Nat
  upper : Nat
  /-- Whether the two ends belong to it. -/
  closed : Bool
  /-- The weight of a quarter of the last place. -/
  unit : Int

namespace Interval

/-- The reals that round to `b`. Below a power of two the numbers lie twice as dense;
`narrow` tells that `b` is one and not the least. -/
def ofBinary (b : Binary) (narrow : Bool) : Interval where
  lower := 4 * b.mantissa - (if narrow then 1 else 2)
  value := 4 * b.mantissa
  upper := 4 * b.mantissa + 2
  closed := b.mantissa % 2 == 0
  unit := b.exponent - 2

/-- The neighbours of the value on the grid of `10 ^ e` that lie in the interval, the
nearer first. Of two equally near the even one is first. -/
def hits (i : Interval) (e : Int) : List Nat :=
  let (twoNum, twoDen) := powRatio 2 i.unit
  let (tenNum, tenDen) := powRatio 10 e
  let bound (quarters : Nat) := quarters * twoNum * tenDen
  let point (d : Nat) := d * tenNum * twoDen
  let below := bound i.value / (tenNum * twoDen)
  let inside (d : Nat) :=
    if i.closed then bound i.lower ≤ point d && point d ≤ bound i.upper
    else bound i.lower < point d && point d < bound i.upper
  let toBelow := bound i.value - point below
  let toAbove := point (below + 1) - bound i.value
  let order :=
    if toBelow < toAbove || (toBelow == toAbove && below % 2 == 0) then [below, below + 1]
    else [below + 1, below]
  order.filter inside

def searchFrom (i : Interval) (e : Int) : (steps : Nat) → Decimal
  | 0 => ⟨0, 0⟩
  | steps + 1 =>
    match i.hits e with
    | d :: _ => ⟨d, e⟩
    | [] => searchFrom i (e - 1) steps

end Interval

/-- The least mantissa of a double that is not denormal, `2 ^ 52`. Below it are the bits
of the fraction, from it on those of the exponent. -/
def leastNormal : Nat := 0x10000000000000

def exponents : Nat := 0x800

def ofBits (bits : UInt64) : Bool × Binary :=
  let bits := bits.toNat
  let fraction := bits % leastNormal
  let biased : Nat := bits / leastNormal % exponents
  (exponents * leastNormal ≤ bits,
    if biased = 0 then ⟨fraction, -1074⟩ else ⟨leastNormal + fraction, biased - 1075⟩)

/-- The shortest decimal that reads back as the double of this size. No double reaches
`10 ^ 309`, and none needs a digit below `10 ^ -324`. -/
def shortest (b : Binary) : Decimal :=
  let narrow := b.mantissa == leastNormal && -1074 < b.exponent
  (Interval.ofBinary b narrow).searchFrom 309 634

end Decimal

end TokenGrammar
