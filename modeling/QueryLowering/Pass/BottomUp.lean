import QueryLowering.Expr.Equality

/-!
Applying a local rule everywhere in a tree, to each node after its children.
-/

namespace QueryLowering.Pass

/-- A rule that looks at one node: none where it does not apply. -/
abbrev Rule := Expr → Except Failure (Option Expr)

/-- What a rule makes of a node; a node to which it does not apply stays. -/
def Rule.apply (rule : Rule) (e : Expr) : Except Failure Expr := do return (← rule e).getD e

/-- Applies a rule to every node, to children before their parents. What the rule puts in is not
looked at again. -/
def bottomUp (rule : Rule) (e : Expr) : Except Failure Expr := do
  rule.apply (← e.traverse fun c _ => bottomUp rule c)
termination_by e
decreasing_by exact Expr.sizeOf_lt_of_mem_children ‹_›

theorem bottomUp_eq (rule : Rule) (e : Expr) :
    bottomUp rule e = (do rule.apply (e.setChildren (← e.children.mapM (bottomUp rule)))) := by
  rw [bottomUp, Expr.traverse_eq]
  simp

end QueryLowering.Pass
