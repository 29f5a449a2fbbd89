import QueryLowering.Expr.Scope
import QueryLowering.Operator
import QueryLowering.Pass.BottomUp

/-!
Membership: asking whether any element equals a value is asking whether the value is contained, and
asking whether all elements differ from it is asking whether it is not.
-/

namespace QueryLowering.Pass.Membership

/-- The comparison that a quantifier over elements has to make. -/
def comparison? (name : String) : Option BinaryOp :=
  if name = "Any" then some .eq else if name = "All" then some .notEq else none

/-- The value on one side of a comparison if the element stands on the other side alone. -/
def comparedValue? (element : Param) (side value : Expr) : Option Expr :=
  match side with
  | .param p => if p = element ∧ value.references element = false then some value else none
  | _ => none

/-- The value that the elements are compared with, on either side. -/
def soughtValue? (op : BinaryOp) (element : Param) (body : Expr) : Option Expr :=
  match body with
  | .binary o left right =>
    if o = op then
      (comparedValue? element left right).or (comparedValue? element right left)
    else none
  | _ => none

/-- Operator of the comparison and value sought, if a quantifier is one over values. Entities are
not compared by value. -/
def quantified? (name : String) (predicate : Expr) : Option (BinaryOp × Expr) := do
  let op ← comparison? name
  match predicate.lambda? with
  | some ([element], body) =>
    if element.type.entityName?.isSome then none
    else (soughtValue? op element body).map (op, ·)
  | _ => none

def rule : Rule
  | .call m _ [source, predicate] _ =>
    if (Family.ofOwner? m.owner).isSome then
      match quantified? m.name predicate with
      | some (op, value) => do
        let contains ← callOperator m.owner "Contains" [source, value]
        return some (if op = .notEq then .unary .not contains else contains)
      | none => .ok none
    else .ok none
  | _ => .ok none

def run (e : Expr) : Except Failure Expr := bottomUp rule e

end QueryLowering.Pass.Membership
