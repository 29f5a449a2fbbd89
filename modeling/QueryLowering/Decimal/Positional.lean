import QueryLowering.Decimal.Shortest

/-!
Text of 64-bit floating-point numbers, given by their bit patterns. Numbers are written in
positional notation with the fewest digits that read back, never with an exponent and without a
trailing fraction of zero.
-/

namespace QueryLowering.Decimal

/-- Moves trailing zeros of the digits into the exponent, at most `fuel` of them. -/
def Scaled.strip (s : Scaled) : Nat → Scaled
  | 0 => s
  | fuel + 1 =>
    if s.digits % 10 = 0 ∧ s.digits ≠ 0 then
      Scaled.strip ⟨s.digits / 10, s.exponent + 1⟩ fuel
    else s

def zeros (n : Nat) : List Char := List.replicate n '0'

/-- Positional notation: zeros fill the places between the digits and the decimal point. -/
def Scaled.positional (s : Scaled) : String :=
  let t := s.strip (digitCount s.digits)
  let ds := Nat.toDigits 10 t.digits
  if 0 ≤ t.exponent then String.ofList (ds ++ zeros t.exponent.toNat)
  else
    let places := (-t.exponent).toNat
    if places < ds.length then
      String.ofList (ds.take (ds.length - places) ++ '.' :: ds.drop (ds.length - places))
    else String.ofList ('0' :: '.' :: zeros (places - ds.length) ++ ds)

/-- Text of the double with the given bit pattern. The sign of a NaN is not shown. -/
def doubleText (bits : UInt64) : String :=
  let n := bits.toNat
  let sign := if n >>> 63 = 1 then "-" else ""
  let exponent : Nat := (n >>> 52) % 2048
  let fraction : Nat := n % (1 <<< 52)
  if exponent = 2047 then
    if fraction = 0 then sign ++ "inf" else "NaN"
  else if exponent = 0 then
    if fraction = 0 then sign ++ "0"
    else sign ++ (Binary.shortest ⟨fraction, -1074, false⟩).positional
  else
    sign ++ (Binary.shortest
      ⟨(1 <<< 52) + fraction, (exponent : Int) - 1075, fraction == 0 && exponent > 1⟩).positional

end QueryLowering.Decimal
