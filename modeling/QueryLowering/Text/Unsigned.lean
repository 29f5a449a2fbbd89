/-!
Reading unsigned decimal numbers below a bound. One plus sign may stand in front of the digits; a
character that is no digit is noticed before an overflow that its predecessors do not yet cause.
-/

namespace QueryLowering.Text.Unsigned

inductive Fault where
  | empty
  | badDigit
  | tooLarge
deriving DecidableEq, Repr

def Fault.text : Fault → String
  | empty => "cannot parse integer from empty string"
  | badDigit => "invalid digit found in string"
  | tooLarge => "number too large to fit in target type"

def digit? (c : Char) : Option Nat :=
  if '0' ≤ c ∧ c ≤ '9' then some (c.toNat - '0'.toNat) else none

/-- Reads digits onto the number `acc` that stands in front of them. -/
def readDigits (bound acc : Nat) : List Char → Except Fault Nat
  | [] => .ok acc
  | c :: cs =>
    match digit? c with
    | none => .error .badDigit
    | some d =>
      if acc * 10 + d < bound then readDigits bound (acc * 10 + d) cs else .error .tooLarge

/-- Reads a number smaller than `bound`. -/
def read (bound : Nat) : List Char → Except Fault Nat
  | [] => .error .empty
  | ['+'] => .error .badDigit
  | '+' :: cs => readDigits bound 0 cs
  | cs => readDigits bound 0 cs

/-- The number of values of a machine word. -/
def wordBound : Nat := UInt64.size

def readWord (s : String) : Except Fault Nat := read wordBound s.toList

end QueryLowering.Text.Unsigned
