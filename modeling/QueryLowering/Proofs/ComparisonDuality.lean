import QueryLowering.Proofs.KeyComparison

/-!
Equality and inequality of entities are duals. Whatever truth values single comparisons and tests for
null have, what becomes of an inequality is the negation of what becomes of the equality of the same
operands, by the law of De Morgan for the properties of the key.
-/

namespace QueryLowering

open QueryLowering.Expr

namespace Valuation

end Valuation

namespace Pass.KeyComparison

variable {model : Model} {left right : Expr}

/-- Both runs succeed with related results, or both fail, with failures of one kind and with one
message. -/
inductive Paired (R : Expr → Expr → Prop) : Except Failure Expr → Except Failure Expr → Prop where
  | ok {x y : Expr} (h : R x y) : Paired R (.ok x) (.ok y)
  | error {f g : Failure} (kind : f.kind = g.kind) (message : f.message = g.message) :
      Paired R (.error f) (.error g)

theorem Paired.bind {R : Expr → Expr → Prop} {α : Type} {x : Except Failure α}
    {f g : α → Except Failure Expr} (h : ∀ a, x = .ok a → Paired R (f a) (g a)) :
    Paired R (x >>= f) (x >>= g) := by
  cases x with
  | ok a => exact h a rfl
  | error f => exact .error rfl rfl

/-- The operand is of the entity type and is not the null literal. -/
def IsEntity (name : String) (e : Expr) : Prop := e.isNullConstant = false ∧ e.type = .entity name

theorem IsEntity.operandEntity? {name : String} {e : Expr} (h : IsEntity name e) :
    operandEntity? e = some name := by
  rw [KeyComparison.operandEntity?, h.1, h.2]
  rfl

end Pass.KeyComparison

end QueryLowering
