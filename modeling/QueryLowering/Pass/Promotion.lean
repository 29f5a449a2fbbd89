import QueryLowering.Operator
import QueryLowering.Pass.BottomUp

/-!
Promotion: an in-memory operator over a query becomes the deferred operator, so that it can be
carried out by the database.
-/

namespace QueryLowering.Pass.Promotion

/-- Is this deferred already, or a collection that a member of a row leads to? -/
def isQuerySource (e : Expr) : Bool :=
  e.type.isQueryable ||
    match e with
    | .member .. => e.type.isSequenceLike
    | _ => false

/-- Makes the source of a call a deferred query. -/
def promoteSource (source : Expr) : Except Failure Expr :=
  if source.type.isQueryable then .ok source
  else callOperator Family.deferred.owner "AsQueryable" [source]

/-- Quotes a lambda. -/
def quoteLambda : Expr → Expr
  | .lambda params body => .quote (.lambda params body)
  | e => e

/-- The call of the deferred operator, if there is one for the converted arguments. -/
def rule : Rule
  | .call m none (source :: rest) _ =>
    if m.owner = Family.inMemory.owner ∧ isQuerySource source = true ∧
        (Operator.findFor? m (source :: rest)).isSome = true then do
      let args := (← promoteSource source) :: rest.map quoteLambda
      if (Operator.find? Family.deferred.owner m.name (args.map ArgShape.of)).isSome then
        return some (← callOperator Family.deferred.owner m.name args)
      else return none
    else .ok none
  | _ => .ok none

def run (e : Expr) : Except Failure Expr := bottomUp rule e

end QueryLowering.Pass.Promotion
