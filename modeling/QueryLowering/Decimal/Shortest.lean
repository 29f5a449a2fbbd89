/-!
Shortest decimals for binary fractions. A positive number `m · 2^q` is approximated by the decimal
with the fewest digits that lies in the interval of numbers rounding to it; among decimals of that
length the nearest wins, and of two equally near ones the greater.
-/

namespace QueryLowering.Decimal

/-- A positive binary fraction `mantissa · 2^exponent`. The flag is set if the next smaller
representable number is only half a unit away. -/
structure Binary where
  mantissa : Nat
  exponent : Int
  narrowBelow : Bool
deriving DecidableEq, Repr

/-- The decimal number `digits · 10^exponent`. -/
structure Scaled where
  digits : Nat
  exponent : Int
deriving DecidableEq, Repr

/-- A non-negative fraction. -/
structure Ratio where
  num : Nat
  den : Nat
deriving DecidableEq, Repr

/-- The fraction `n · 2^e`. -/
def Ratio.binary (n : Nat) (e : Int) : Ratio := ⟨n <<< e.toNat, 1 <<< (-e).toNat⟩

/-- The fraction divided by `10^k`. -/
def Ratio.scale (r : Ratio) (k : Int) : Ratio :=
  ⟨r.num * Nat.pow 10 (-k).toNat, r.den * Nat.pow 10 k.toNat⟩

def digitCount (n : Nat) : Nat := (Nat.toDigits 10 n).length

/-- The exponent of the leading decimal digit of a positive fraction. -/
def Ratio.leading (r : Ratio) : Int :=
  if r.den ≤ r.num then digitCount (r.num / r.den) - 1
  else -(digitCount ((r.den + r.num - 1) / r.num - 1) : Int)

namespace Binary

def value (b : Binary) : Ratio := .binary b.mantissa b.exponent

/-- Lower end of the numbers that round to the fraction. -/
def lower (b : Binary) : Ratio :=
  .binary (4 * b.mantissa - if b.narrowBelow then 1 else 2) (b.exponent - 2)

/-- Upper end of the numbers that round to the fraction. -/
def upper (b : Binary) : Ratio := .binary (4 * b.mantissa + 2) (b.exponent - 2)

/-- Does the number of grid steps `n · 10^k` round to the fraction? The ends of the interval do
exactly if the mantissa is even. -/
def covers (b : Binary) (n : Nat) (k : Int) : Bool :=
  let lo := b.lower.scale k
  let hi := b.upper.scale k
  if b.mantissa % 2 = 0 then lo.num ≤ n * lo.den && n * hi.den ≤ hi.num
  else lo.num < n * lo.den && n * hi.den < hi.num

/-- The nearer of the two neighbours on the grid of `10^k`, if one of them rounds to the fraction. -/
def onGrid? (b : Binary) (k : Int) : Option Nat :=
  let v := b.value.scale k
  let below := v.num / v.den
  let rest := v.num % v.den
  match b.covers below k, b.covers (below + 1) k with
  | true, true => some (if 2 * rest < v.den then below else below + 1)
  | true, false => some below
  | false, true => some (below + 1)
  | false, false => none

/-- Tries ever finer grids below the exponent `k`, at most `tries` of them. -/
def search (b : Binary) (k : Int) : Nat → Scaled
  | 0 => ⟨(b.value.scale k).num / (b.value.scale k).den, k⟩
  | tries + 1 =>
    match b.onGrid? k with
    | some n => ⟨n, k⟩
    | none => search b (k - 1) tries

/-- Seventeen digits always suffice for a double. -/
def shortest (b : Binary) : Scaled := b.search b.value.leading 17

end Binary

end QueryLowering.Decimal
