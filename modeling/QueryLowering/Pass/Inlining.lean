import QueryLowering.Expr.Subst
import QueryLowering.Expr.Text

/-!
Inlining: an invocation of a lambda that is known becomes the body of the lambda with the arguments
put for its parameters. The body is then inlined itself, up to a limit of nested inlinings.
-/

namespace QueryLowering.Pass.Inlining

/-- How deeply inlinings may be nested. -/
def depthLimit : Nat := 64

/-- The lambda that a callee stands for: a lambda, quoted or not, or the body of a delegate. -/
def knownLambda? : Expr → Option (List Param × Expr)
  | .lambda params body => some (params, body)
  | .quote (.lambda params body) => some (params, body)
  | .const (.delegate _ (some body)) _ => body.lambda?
  | _ => none

def unresolved (e : Expr) : Failure :=
  Failure.atNode
    ⟨.unresolvedInvocation, "Invocation target is not a lambda known at compile time", [], none⟩ e

def wrongArity (args params : Nat) (e : Expr) : Failure :=
  (Failure.unsupported ("Invocation passes " ++ toString args ++ " arguments to a lambda taking " ++
    toString params)).atNode e

def tooDeep (e : Expr) : Failure := (Failure.unsupported "Invocation nesting too deep").atNode e

/-- Inlines every invocation, with at most `budget` of them nested. Arguments are put in as they
are and inlined with the body. -/
def inline (budget : Nat) (e : Expr) : Except Failure Expr :=
  match e with
  | .invoke callee args type => do
    let callee' ← (if (knownLambda? callee).isSome then pure callee else inline budget callee)
    match knownLambda? callee' with
    | none => throw (unresolved (.invoke callee args type))
    | some (params, body) =>
      if params.length ≠ args.length then
        throw (wrongArity args.length params.length (.invoke callee args type))
      else
        match budget with
        | 0 => throw (tooDeep (.invoke callee args type))
        | budget + 1 => inline budget (Expr.subst (params.zip args) body)
  | e => e.traverse fun c _ => inline budget c
termination_by (budget, sizeOf e)
decreasing_by
  · exact Prod.Lex.right _ (Expr.sizeOf_lt_of_mem_children (by simp [Expr.children]))
  · exact Prod.Lex.left _ _ (by omega)
  · exact Prod.Lex.right _ (Expr.sizeOf_lt_of_mem_children ‹_›)

def run (e : Expr) : Except Failure Expr := inline depthLimit e

end QueryLowering.Pass.Inlining
