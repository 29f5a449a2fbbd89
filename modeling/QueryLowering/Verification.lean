import QueryLowering.Expr.Text
import QueryLowering.Expr.Typing
import QueryLowering.Model

/-!
Verification that a lowered query has nothing left in it that lowering should have removed.
-/

namespace QueryLowering.Verification

/-- The name under which verification reports failures. -/
def passName : String := "verify"

/-- Is this a callee that can be inlined? -/
def isInlinable : Expr → Bool
  | .lambda .. | .quote _ => true
  | .const (.delegate _ (some _)) _ => true
  | _ => false

/-- What is wrong with a node by itself. -/
def violation? (model : Model) : Expr → Option String
  | .invoke callee _ _ =>
    if isInlinable callee then some "Invocation of a known lambda was not inlined" else none
  | .binary op left right =>
    if op.isEquality then
      (left.type.entityName?.or right.type.entityName?).map fun entity =>
        "Equality on entity type " ++ entity ++ " was not rewritten"
    else none
  | .member target name _ => do
    let entity ← target.type.entityName?
    let n ← model.navigation? entity name
    return "Navigation " ++ entity ++ "." ++ n.name ++ " was not expanded"
  | _ => none

def failure (node : Expr) (message : String) : Failure :=
  ((Failure.unsupported message).withField Failure.passField passName).atNode node

/-- The first node with a violation, parents before children and left before right. -/
def firstViolation? (model : Model) (e : Expr) : Option (Expr × String) :=
  e.nodes.findSome? fun n => (violation? model n).map (n, ·)

/-- Fails at the first violation. -/
def verify (model : Model) (e : Expr) : Except Failure Unit :=
  match firstViolation? model e with
  | some (node, message) => .error (failure node message)
  | none => .ok ()

end QueryLowering.Verification
