import QueryLowering.DataType
import QueryLowering.Decimal.Positional

/-!
Constant values: scalars, lists of scalars, entity sets and delegates.
-/

namespace QueryLowering

/-- A scalar. Floating-point numbers are kept as bit patterns, so that two of them are the same
scalar exactly if they have the same bits. -/
inductive Scalar where
  | null
  | boolean (value : Bool)
  | int32 (value : Int32)
  | int64 (value : Int64)
  | float64 (bits : UInt64)
  | utf8 (value : String)
deriving DecidableEq

namespace Scalar

def isNull : Scalar → Bool
  | null => true
  | _ => false

def type : Scalar → DataType
  | null => .null
  | boolean _ => .boolean
  | int32 _ => .int32
  | int64 _ => .int64
  | float64 _ => .float64
  | utf8 _ => .utf8

def string? : Scalar → Option String
  | utf8 s => some s
  | _ => none

/-- Strings stand in single quotes, which are not escaped inside. -/
def text : Scalar → String
  | null => "NULL"
  | boolean b => if b then "true" else "false"
  | int32 n => toString n.toInt
  | int64 n => toString n.toInt
  | float64 bits => Decimal.doubleText bits
  | utf8 s => "'" ++ s ++ "'"

end Scalar

/-- A constant. A delegate names a function of the host program; its body, of type `α`, is known
only for some of them. -/
inductive Constant (α : Type) where
  | scalar (value : Scalar)
  | list (values : List Scalar)
  | entitySet (entity : String)
  | delegate (name : String) (body : Option α)
deriving DecidableEq

namespace Constant

variable {α : Type}

def isNull : Constant α → Bool
  | scalar v => v.isNull
  | _ => false

def scalar? : Constant α → Option Scalar
  | scalar v => some v
  | _ => none

def text : Constant α → String
  | scalar v => v.text
  | list vs => "[" ++ ", ".intercalate (vs.map Scalar.text) ++ "]"
  | entitySet entity => "Set<" ++ entity ++ ">"
  | delegate name _ => "delegate " ++ name

end Constant

end QueryLowering
