import QueryLowering.Expr.Typing

/-!
Builders of expressions that find out the type of the new node themselves.
-/

namespace QueryLowering.Expr

/-- A scalar with its natural type. -/
def literal (v : Scalar) : Expr := const (.scalar v) v.type

/-- A null of a given type. -/
def nullOf (type : DataType) : Expr := const (.scalar .null) type

/-- All rows of an entity type. -/
def entitySet (entity : String) : Expr := const (.entitySet entity) (.queryable (.entity entity))

/-- A delegate with a known body, typed as its body. -/
def delegate (name : String) (body : Expr) : Expr := const (.delegate name (some body)) body.type

/-- Application of a function value; the result is typed null if the callee is no function. -/
def apply (callee : Expr) (args : List Expr) : Expr :=
  invoke callee args (callee.type.result?.getD .null)

/-- A conditional typed by its first branch, or by its second if that is typed null. -/
def ite (test whenTrue whenFalse : Expr) : Expr :=
  cond test whenTrue whenFalse
    (if whenTrue.type.isNull then whenFalse.type else whenTrue.type)

/-- Joins expressions by a binary operator, nested to the left; none for the empty list. -/
def foldBinary? (op : BinaryOp) : List Expr → Option Expr
  | [] => none
  | e :: es => some (es.foldl (binary op) e)

end QueryLowering.Expr
