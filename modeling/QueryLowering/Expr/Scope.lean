import QueryLowering.Expr.Equality

/-!
Scoping of parameters. A parameter is identified by name and type, while a lambda hides every
parameter of an outer scope that has the name of one of its own.
-/

namespace QueryLowering.Expr

/-- Does a list of lambda parameters hide a name? -/
def hides (params : List Param) (name : String) : Bool := params.any fun p => p.name == name

/-- Does the expression refer to a parameter of an outer scope? -/
def references (q : Param) (e : Expr) : Bool :=
  match e with
  | param p => p == q
  | lambda params body => !hides params q.name && references q body
  | e => e.anyChild fun c _ => references q c
termination_by e
decreasing_by
  · exact sizeOf_lt_of_mem_children (by simp [children])
  · exact sizeOf_lt_of_mem_children ‹_›

@[simp] theorem references_param (q p : Param) : references q (param p) = (p == q) := by
  rw [references]

@[simp] theorem references_lambda (q : Param) (params : List Param) (body : Expr) :
    references q (lambda params body) = (!hides params q.name && references q body) := by
  rw [references]

/-- A node that is neither a parameter nor a lambda refers to what its children refer to. -/
theorem references_eq_any (q : Param) (e : Expr) (hparam : ∀ p, e ≠ param p)
    (hlambda : ∀ params body, e ≠ lambda params body) :
    references q e = e.children.any (references q) := by
  rw [references, anyChild_eq]
  · exact fun p h => hparam p h
  · exact fun params body h => hlambda params body h

end QueryLowering.Expr
