import Mathlib
import QueryLowering.Pass
import QueryLowering.Proofs.GuardPlaces
import QueryLowering.Proofs.Steps
import QueryLowering.Sample

/-!
Guards of rows that come from a sequence with a default row. Such a row may be missing, yet removal
takes only second parameters for rows that may be missing, while the rows of a sequence are the first
parameter of a lambda. So the guard of a first parameter goes whenever the parameter is of an entity
type, whatever it ranges over, and stays otherwise.
-/

namespace QueryLowering

/-- A call of the operator that gives a default row for an empty sequence. -/
def Expr.SuppliesDefault : Expr → Prop
  | .call m _ args _ => m.name = "DefaultIfEmpty" ∧ (Operator.findFor? m args).isSome = true
  | _ => False

namespace Pass.NullGuard

open QueryLowering.Expr StateStep

variable {model : Model} {e n test whenTrue whenFalse value : Expr} {type : DataType} {P : Place}
  {p : Param} {b : Binding}

/-- The argument of an operator whose first sequence supplies a default row, and the first parameter of
the argument ranges over that sequence. -/
structure Argument.OverDefault (a : Argument) : Prop where
  operator : (Operator.findFor? a.method a.args).isSome = true
  ranges : Navigation.boundSource? a.method.name a.position 0 = some 0
  supplies : ∃ source ∈ a.args.head?, SuppliesDefault source

/-- The parameter is the first one of a lambda and ranges over a sequence with a default row. -/
structure Binding.OverDefault (b : Binding) : Prop where
  first : b.position = 0
  argument : ∃ a ∈ b.argument, a.OverDefault

theorem rewritten_of_isNullConstant (h : n.isNullConstant = true) : rewritten model P n = n := by
  cases n with
  | const => exact rewritten_of_leaf rfl
  | _ => cases h

/-- A test that compares a parameter with null stays as it is. -/
theorem rewritten_nullTest {isNull : Bool} (h : NullTest test (.param p) isNull) :
    rewritten model P test = test := by
  have hparam : ∀ Q, rewritten model Q (.param p) = .param p := fun Q => rewritten_of_leaf rfl
  cases h with
  | isNull | isNotNull =>
    rw [rewritten_of_kindName (by simp [kindName])]
    simp [children, setChildren, hparam]
  | left _ hnull | right _ hnull =>
    rw [rewritten_of_kindName (by simp [kindName])]
    simp [children, setChildren, hparam, rewritten_of_isNullConstant hnull]

/-- A guard of a parameter guards it also once its branches are rewritten. -/
theorem guarded?_rewritten (model : Model) (Q : Place)
    (h : guarded? test whenTrue whenFalse = some (.param p, value)) :
    rewritten model Q test = test ∧
      guarded? test (rewritten model Q whenTrue) (rewritten model Q whenFalse) =
        some (.param p, rewritten model Q value) := by
  obtain ⟨isNull, htest, hnull, rfl⟩ := guarded?_eq_some_iff.mp h
  refine ⟨rewritten_nullTest (nullTest_of_nullTest? htest),
    guarded?_eq_some_iff.mpr ⟨isNull, htest, ?_⟩⟩
  cases isNull with
  | true | false => exact ⟨(congrArg _ (rewritten_of_isNullConstant hnull)).trans hnull, rfl⟩

/-- The guard of a parameter goes exactly if the parameter is of an entity type and its row counts as
one that is there. -/
theorem rewritten_guard (h : guarded? test whenTrue whenFalse = some (.param p, value)) :
    rewritten model P (.cond test whenTrue whenFalse type) =
      if p.type.entityName?.isSome = true ∧ P.scope.isOptional p = false then
        rewritten model P.below value
      else .cond test (rewritten model P.below whenTrue)
        (rewritten model P.below whenFalse) type := by
  obtain ⟨htest, hguarded⟩ := guarded?_rewritten model P.below h
  have hparts : rewritten model P (.cond test whenTrue whenFalse type) =
      unguard model P.scope test (rewritten model P.below whenTrue)
        (rewritten model P.below whenFalse) type := by
    conv => rhs; rw [← htest]
    rw [rewritten_eq]
    rfl
  rw [hparts, unguard, hguarded]
  simp [nonNull]

/-- The guard of a row from a sequence with a default row goes exactly if the row is of an entity
type. Whatever becomes of the guard is found in the result, unless a guard around it takes it away. -/
theorem guard_of_default_row (hguard : guarded? test whenTrue whenFalse = some (.param p, value))
    (hbinds : P.binding? p.name = some b) (hdefault : b.OverDefault) :
    rewritten model P (.cond test whenTrue whenFalse type) =
        (if p.type.entityName?.isSome = true then rewritten model P.below value
        else .cond test (rewritten model P.below whenTrue)
          (rewritten model P.below whenFalse) type) ∧
      (Kept model e P (.cond test whenTrue whenFalse type) →
        rewritten model P (.cond test whenTrue whenFalse type) ∈ (run model e).nodes) := by
  refine ⟨?_, Kept.mem_nodes⟩
  -- A row that may be missing is that of a second parameter.
  have hthere : P.scope.isOptional p = false := by
    rw [Bool.eq_false_iff, ne_eq, Place.isOptional_scope_iff, hbinds]
    rintro ⟨b', hb', hsecond, -⟩
    cases hb'
    rw [hdefault.first] at hsecond
    cases hsecond
  rw [rewritten_guard hguard]
  simp only [hthere, and_true]

/-- The row `o` of an order, or a default row. -/
def orderRow : Param := ⟨"o", .entity "Order"⟩

/-- The total of an order, read without a guard. -/
def orderTotal : Expr := .member (.param orderRow) "Total" .float64

/-- The total of an order, or null if there is no order. -/
def guardedTotal : Expr :=
  .cond (.binary .eq (.param orderRow) (.nullOf (.entity "Order"))) (.nullOf .float64) orderTotal
    .float64

/-- The orders, or a default row if there are none. -/
def ordersWithDefault : Expr :=
  .call ⟨"Queryable", "DefaultIfEmpty", [.entity "Order"]⟩ none [.entitySet "Order"]
    (.queryable (.entity "Order"))

/-- What is selected from the orders, or from a default row. -/
def selectOrDefault (selected : Expr) : Expr :=
  .call ⟨"Queryable", "Select", [.entity "Order", selected.type]⟩ none
    [ordersWithDefault, .quote (.lambda [orderRow] selected)] (.queryable selected.type)

/-- The selector is the second argument, and the order is its first parameter. -/
def orderBinding : Binding :=
  ⟨orderRow, 0, some ⟨⟨"Queryable", "Select", [.entity "Order", .float64]⟩,
    [ordersWithDefault, .quote (.lambda [orderRow] guardedTotal)], 1⟩⟩

theorem orderBinding_overDefault : orderBinding.OverDefault where
  first := rfl
  argument := ⟨_, rfl, by cbv, by cbv, _, rfl, by cbv, by cbv⟩

theorem kept_guardedTotal :
    Kept Sample.model (selectOrDefault guardedTotal) ⟨[orderBinding], none⟩ guardedTotal := by
  have hselector : Kept Sample.model (selectOrDefault guardedTotal)
      ⟨[], orderBinding.argument⟩ (.quote (.lambda [orderRow] guardedTotal)) :=
    Kept.root.child_of_kindName (i := 1) (by cbv) rfl
  have hlambda := hselector.child_of_kindName (i := 0) (by cbv) rfl
  exact hlambda.child_of_kindName (i := 0) (by cbv) rfl

/-- The guard of an order that may be a default row goes. -/
theorem guard_of_default_order :
    guarded? (.binary .eq (.param orderRow) (.nullOf (.entity "Order"))) (.nullOf .float64)
        orderTotal = some (.param orderRow, orderTotal) ∧
      Place.binding? ⟨[orderBinding], none⟩ "o" = some orderBinding ∧ orderBinding.OverDefault ∧
      rewritten Sample.model ⟨[orderBinding], none⟩ guardedTotal =
        rewritten Sample.model ⟨[orderBinding], none⟩ orderTotal ∧
      rewritten Sample.model ⟨[orderBinding], none⟩ guardedTotal ∈
        (run Sample.model (selectOrDefault guardedTotal)).nodes := by
  have hguard : guarded? (.binary .eq (.param orderRow) (.nullOf (.entity "Order")))
      (.nullOf .float64) orderTotal = some (.param orderRow, orderTotal) := by cbv
  have hbinds : Place.binding? ⟨[orderBinding], none⟩ "o" = some orderBinding := by cbv
  obtain ⟨hgone, hfound⟩ := guard_of_default_row (e := selectOrDefault guardedTotal) hguard hbinds
    orderBinding_overDefault
  exact ⟨hguard, hbinds, orderBinding_overDefault, hgone, hfound kept_guardedTotal⟩

/-- From the orders, or a default row, the totals are selected without a guard in the end. -/
theorem guard_of_default_order_dropped :
    guardedTotal ∈ (selectOrDefault guardedTotal).nodes ∧
    (nullGuard.run ⟨Sample.model, Sample.catalog⟩ (selectOrDefault guardedTotal)).Gives .fresh
      (selectOrDefault orderTotal) .fresh ∧
    (selectOrDefault orderTotal).Everywhere fun n => n.kindName ≠ "Conditional" := by
  refine ⟨?_, ?_, ?_⟩
  · apply mem_nodes_of_mem_children (List.mem_cons_of_mem _ List.mem_cons_self)
    apply mem_nodes_of_mem_children List.mem_cons_self
    exact mem_nodes_of_mem_children List.mem_cons_self (self_mem_nodes _)
  · unfold Gives
    cbv
  · have hall : (selectOrDefault orderTotal).nodes.all
        (fun n => n.kindName != "Conditional") = true := by cbv
    exact fun n hn => bne_iff_ne.mp (List.all_eq_true.mp hall n hn)

end Pass.NullGuard

end QueryLowering
