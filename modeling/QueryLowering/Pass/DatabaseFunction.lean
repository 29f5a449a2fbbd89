import QueryLowering.Expr.Text
import QueryLowering.Operator
import QueryLowering.State

/-!
Database functions: calls of methods that the catalog knows become calls of the functions they stand
for. A table-valued function may only stand where rows are wanted.
-/

namespace QueryLowering.Pass.DatabaseFunction

def asScalar (f : DbFunction) (e : Expr) : Failure :=
  Failure.atNode
    ⟨.tableFunctionAsScalar,
      "Table-valued function '" ++ f.qualifiedName ++ "' can only be used as a row source", [], none⟩ e

/-- Where an expression stands: as a value, as a source of rows, or as a lambda whose result is a
source of rows. -/
inductive Position where
  | value
  | rows
  | rowsSelector
deriving DecidableEq, Repr

/-- Where the argument of an operator stands. -/
def argPosition (operator : String) (index : Nat) (arg : Expr) : Position :=
  match ArgShape.of arg with
  | .sequence | .queryable => .rows
  | .lambda _ | .quotedLambda _ =>
    if operator = "SelectMany" ∧ index = 1 then .rowsSelector else .value
  | .value => .value

/-- Where a child of a node other than an operator call stands. -/
def childPosition (e : Expr) (index : Nat) : Position :=
  if e.isRowSourceChild index then .rows else .value

/-- The call of the function that a method stands for with the given arguments. -/
def resolveCall (set : FunctionSet) (position : Position) (args : List Expr) (node : Expr) :
    StateStep State Expr := do
  let f ← StateStep.ofExcept ((set.resolve (args.map Expr.type)).mapError fun f => f.atNode node)
  if !f.isTableValued then return .functionCall f args
  else if position = .rows then return .tableFunction (← modifyGet State.takeAlias) f args
  else throw (asScalar f node)

/-- Resolves all functions of an expression in the given position. -/
def resolve (catalog : Catalog) (position : Position) (e : Expr) : StateStep State Expr :=
  match e with
  | .call m receiver args type =>
    match catalog.find? m with
    | some set => do
      let args' ← args.attach.mapM fun a => resolve catalog .value a.1
      resolveCall set position args' (.call m receiver args type)
    | none =>
      if (Operator.findFor? m args).isSome then do
        let args' ← args.attach.zipIdx.mapM fun a =>
          resolve catalog (argPosition m.name a.2 a.1.1) a.1.1
        StateStep.ofExcept ((Expr.call m receiver args type).withChildren args')
      else
        (Expr.call m receiver args type).traverse fun c _ => resolve catalog .value c
  | .quote inner =>
    Expr.quote <$> resolve catalog (if position = .rowsSelector then .rowsSelector else .value) inner
  | .lambda params body =>
    Expr.lambda params <$> resolve catalog (if position = .rowsSelector then .rows else .value) body
  | e => e.traverseIdx fun i c _ => resolve catalog (childPosition e i) c
termination_by e
decreasing_by
  · exact Expr.sizeOf_lt_of_mem_children (List.mem_append_right _ a.2)
  · exact Expr.sizeOf_lt_of_mem_children (List.mem_append_right _ a.1.2)
  · exact Expr.sizeOf_lt_of_mem_children ‹_›
  · exact Expr.sizeOf_lt_of_mem_children (by simp [Expr.children])
  · exact Expr.sizeOf_lt_of_mem_children (by simp [Expr.children])
  · exact Expr.sizeOf_lt_of_mem_children ‹_›

/-- A whole query is a source of rows. -/
def run (catalog : Catalog) (e : Expr) : StateStep State Expr := resolve catalog .rows e

end QueryLowering.Pass.DatabaseFunction
