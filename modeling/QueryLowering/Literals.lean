import QueryLowering.Expr.Basic
import QueryLowering.Operator

/-!
Extraction of literals. Queries that differ only in their literals share a shape, in which
parameters stand for the literals.
-/

namespace QueryLowering

/-- A parameter of a compiled query with its value. -/
structure QueryParameter where
  name : String
  value : Constant Expr

namespace Literals

/-- The name of the parameter for the literal with the given number. -/
def paramName (n : Nat) : String := "__p_" ++ toString n

/-- Nulls, entity sets and delegates belong to the shape of a query. -/
def isLiteral : Constant Expr → Bool
  | .scalar v => !v.isNull
  | .list _ => true
  | .entitySet _ | .delegate .. => false

/-- Puts parameters for literals, numbered from left to right. Of a marker call only the source is
looked at, since its other arguments decide how the query is run. -/
def extractM (e : Expr) : StateM (List QueryParameter) Expr :=
  match e with
  | .const value type =>
    if isLiteral value then
      modifyGet fun ps =>
        (.param ⟨paramName ps.length, type⟩, ps ++ [⟨paramName ps.length, value⟩])
    else return .const value type
  | .call m receiver args type =>
    (Expr.call m receiver args type).traverseIdx fun i c _ =>
      if (Marker.of? m).isSome ∧ i ≠ 0 then return c else extractM c
  | e => e.traverse fun c _ => extractM c
termination_by e
decreasing_by
  all_goals exact Expr.sizeOf_lt_of_mem_children ‹_›

/-- The shape of a query and the values of its parameters. -/
def extract (e : Expr) : Expr × List QueryParameter := (extractM e).run []

end Literals

end QueryLowering
