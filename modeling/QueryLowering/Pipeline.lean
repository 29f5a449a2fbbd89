import QueryLowering.Pass

/-!
Lowering a query: all passes in their order, over a fresh state.
-/

namespace QueryLowering

/-- A lowered query. -/
structure Lowered where
  expr : Expr
  metadata : Metadata
deriving DecidableEq

/-- Runs a pass and names it in the failure, unless that names one already. -/
def Pass.runNamed (ctx : Context) (p : Pass) (e : Expr) : StateStep State Expr :=
  ExceptT.mk fun s =>
    match (p.run ctx e).run.run s with
    | (.ok e', s') => (.ok e', s')
    | (.error f, s') => (.error (f.withFieldIfAbsent Failure.passField p.name), s')

/-- Runs passes one after the other, each on what the one before made of the expression. -/
def Pass.runAll (ctx : Context) : List Pass → Expr → StateStep State Expr
  | [], e => return e
  | p :: ps, e => do Pass.runAll ctx ps (← p.runNamed ctx e)

/-- Lowers a query. -/
def lower (ctx : Context) (e : Expr) : Except Failure Lowered :=
  match (Pass.runAll ctx Pass.all e).run.run State.fresh with
  | (.ok e', s) => .ok ⟨e', s.metadata⟩
  | (.error f, _) => .error f

/-- Lowers a query again and again, each time the result of the time before, until it fails. -/
def lowerRepeatedly (ctx : Context) : Nat → Expr → List (Expr × Except Failure Lowered)
  | 0, _ => []
  | times + 1, e =>
    match lower ctx e with
    | .ok l => (e, .ok l) :: lowerRepeatedly ctx times l.expr
    | .error f => [(e, .error f)]

end QueryLowering
