import QueryLowering.Expr.Lemmas
import QueryLowering.Expr.Scope

/-!
Substitution for parameters and for members of a parameter. Both stop where a lambda hides the
parameter, and neither renames bound parameters.
-/

namespace QueryLowering.Expr

/-- Parameters with what is to stand for them; the first binding of a parameter counts. -/
abbrev Bindings := List (Param × Expr)

/-- The bindings that lambda parameters do not hide. -/
def Bindings.visible (σ : Bindings) (params : List Param) : Bindings :=
  σ.filter fun b => !hides params b.1.name

/-- Puts expressions for parameters, all at once. -/
def subst (σ : Bindings) (e : Expr) : Expr :=
  match e with
  | param p => (σ.lookup p).getD (param p)
  | lambda params body =>
    if (σ.visible params).isEmpty then lambda params body
    else lambda params (subst (σ.visible params) body)
  | e => e.mapChildren fun c _ => subst σ c
termination_by e
decreasing_by
  · exact sizeOf_lt_of_mem_children (by simp [children])
  · exact sizeOf_lt_of_mem_children ‹_›

@[simp] theorem subst_param (σ : Bindings) (p : Param) :
    subst σ (param p) = (σ.lookup p).getD (param p) := by
  rw [subst]

/-- In a node that is neither a parameter nor a lambda, the children are substituted in. -/
theorem subst_eq_setChildren (σ : Bindings) (e : Expr) (hparam : ∀ p, e ≠ param p)
    (hlambda : ∀ params body, e ≠ lambda params body) :
    subst σ e = e.setChildren (e.children.map (subst σ)) := by
  rw [subst, mapChildren_eq]
  · exact fun p h => hparam p h
  · exact fun params body h => hlambda params body h

/-- Without bindings nothing changes. -/
@[simp] theorem subst_nil (e : Expr) : subst [] e = e := by
  induction e using scopeInduction with
  | hparam p => simp
  | hlambda params body _ =>
    rw [subst]
    simp [Bindings.visible]
  | hnode e hp hl ih => rw [subst_eq_setChildren [] e hp hl, setChildren_map_eq_self ih]

/-- Under a lambda, the bindings that it does not hide are substituted. -/
theorem subst_lambda (σ : Bindings) (params : List Param) (body : Expr) :
    subst σ (lambda params body) = lambda params (subst (σ.visible params) body) := by
  rw [subst]
  split
  · rename_i h
    rw [List.isEmpty_iff.1 h, subst_nil]
  · rfl

/-- Is this an access of the named member of the parameter? -/
def isMemberOf (p : Param) (name : String) : Expr → Bool
  | member (param q) n _ => n == name && q == p
  | _ => false

/-- Puts an expression for each access of one member of a parameter. -/
def substMember (p : Param) (name : String) (replacement : Expr) (e : Expr) : Expr :=
  if e.isMemberOf p name then replacement
  else
    match e with
    | lambda params body =>
      if hides params p.name then lambda params body
      else lambda params (substMember p name replacement body)
    | e => e.mapChildren fun c _ => substMember p name replacement c
termination_by e
decreasing_by
  · exact sizeOf_lt_of_mem_children (by simp [children])
  · exact sizeOf_lt_of_mem_children ‹_›

/-- Puts one expression for another wherever it occurs, not looking inside what was put in. -/
def replace (old new e : Expr) : Expr :=
  if e = old then new else e.mapChildren fun c _ => replace old new c
termination_by e
decreasing_by exact sizeOf_lt_of_mem_children ‹_›

end QueryLowering.Expr
