import QueryLowering.Expr.Basic

/-!
The data type of an expression. Most nodes of the host language carry their type; the others are
typed by their parts.
-/

namespace QueryLowering.Expr

mutual

/-- The data type of an expression. -/
def type : Expr → DataType
  | const _ t => t
  | param p => p.type
  | call _ _ _ t => t
  | member _ _ t => t
  | lambda params body => .function (params.map Param.type) (type body)
  | quote inner => type inner
  | invoke _ _ t => t
  | unary .negate operand => type operand
  | unary _ _ => .boolean
  | binary op left _ => if op.isArithmetic then type left else .boolean
  | cond _ _ _ t => t
  | object members => .record (memberTypes members)
  | baseTable _ _ _ entity => .queryable (.entity entity)
  | derivedTable _ subquery => type subquery
  | functionCall f _ => f.signature.result
  | tableFunction _ f _ => f.signature.result
  | navigationJoin _ outer _ _ _ => type outer
  | pivotTable _ _ _ _ (some selector) => .queryable (lambdaType selector)
  | pivotTable _ _ key aggregate none =>
    .queryable (.record [("Key", lambdaType key), ("Value", lambdaType aggregate)])
  | sourceRef _ entity => .entity entity
termination_by structural x => x

/-- The result type of a lambda, quoted or not; of anything else, null. -/
def lambdaType : Expr → DataType
  | lambda _ body => type body
  | quote (lambda _ body) => type body
  | _ => .null
termination_by structural x => x

def memberTypes : List (String × Expr) → List (String × DataType)
  | [] => []
  | (name, e) :: es => (name, type e) :: memberTypes es
termination_by structural x => x

end

theorem memberTypes_eq_map (ms : List (String × Expr)) :
    memberTypes ms = ms.map fun m => (m.1, m.2.type) := by
  induction ms with
  | nil => rfl
  | cons m ms ih => simp [memberTypes, ih]

theorem lambdaType_eq (e : Expr) :
    e.lambdaType = match e.lambda? with
      | some (_, body) => body.type
      | none => .null := by
  cases e with
  | quote inner => cases inner <;> rfl
  | _ => rfl

end QueryLowering.Expr
