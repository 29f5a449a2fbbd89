import QueryLowering.Expr.Text
import QueryLowering.Literals

/-!
Execution of scalar functions whose arguments are known.
-/

namespace QueryLowering

/-- Carries out a function on known arguments. -/
abbrev ScalarExecutor := DbFunction → List Scalar → Except Failure Scalar

namespace ScalarExecutor

def unknownArgument (e : Expr) : Failure :=
  (Failure.unsupported "Function argument is not a known scalar value").atNode e

def tableFunction (f : DbFunction) : Failure :=
  ⟨.tableFunctionAsScalar,
    "Cannot execute table-valued function '" ++ f.qualifiedName ++ "' as a scalar", [], none⟩

/-- The value of a constant or of a query parameter, which is found by name alone. -/
def known? (parameters : List QueryParameter) : Expr → Option (Constant Expr)
  | .const value _ => some value
  | .param p => (parameters.find? fun q => q.name == p.name).map QueryParameter.value
  | _ => none

def argument (parameters : List QueryParameter) (e : Expr) : Except Failure Scalar :=
  match known? parameters e with
  | some (.scalar v) => .ok v
  | _ => .error (unknownArgument e)

/-- Executes a call of a scalar function. -/
def executeCall (execute : ScalarExecutor) (parameters : List QueryParameter) (f : DbFunction)
    (args : List Expr) : Except Failure Scalar :=
  if f.isTableValued then .error (tableFunction f)
  else do execute f (← args.mapM (argument parameters))

end ScalarExecutor

end QueryLowering
