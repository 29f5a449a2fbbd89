import QueryLowering.Proofs.Everywhere

/-!
Rebuilding of nodes. Children and rebuilding are a lawful pair: a node is rebuilt from the lists that are
as long as that of its children, has then just these children and is of the same kind, and to rebuild it
from its old children undoes this. A relational node that is rebuilt on its own takes the same lists and
gives the same node.
-/

namespace QueryLowering.Expr

variable {e r : Expr} {cs : List Expr}

/-- Whatever children were put into a node, to put back the old ones gives the node again. -/
theorem setChildren_undo (h : cs.length = e.children.length) :
    (e.setChildren cs).setChildren e.children = e := by
  rw [setChildren_setChildren h rfl, setChildren_children]

theorem withChildren_undo (h : cs.length = e.children.length) :
    (e.setChildren cs).withChildren e.children = .ok e := by
  refine withChildren_eq_ok.mpr ⟨?_, (setChildren_undo h).symm⟩
  rw [children_setChildren h, h]

/-- Each kind of relational node rebuilds itself by putting in as many children as it has. -/
theorem withNodeChildren_of_length (h : e.isRelational = true)
    (hlength : cs.length = e.children.length) : e.withNodeChildren cs = .ok (e.setChildren cs) := by
  cases e with
  | baseTable | sourceRef =>
    cases List.eq_nil_of_length_eq_zero hlength
    rfl
  | derivedTable =>
    obtain ⟨c, rfl⟩ := List.length_eq_one_iff.mp hlength
    rfl
  | functionCall | tableFunction => exact if_pos hlength
  | navigationJoin =>
    obtain ⟨outer, inner, outerKey, innerKey, rfl⟩ := exists_of_length_four hlength
    rfl
  | pivotTable row s k a selector =>
    cases selector with
    | none =>
      obtain ⟨source, key, aggregate, rfl⟩ := exists_of_length_three hlength
      rfl
    | some r =>
      obtain ⟨source, key, aggregate, result, rfl⟩ := exists_of_length_four hlength
      rfl
  | _ => cases h

/-- A list of another length is refused. -/
theorem withNodeChildren_of_length_ne (hlength : cs.length ≠ e.children.length) :
    e.withNodeChildren cs = .error (e.wrongNodeChildren cs) := by
  unfold withNodeChildren
  split
  -- Arguments of functions are counted, all other kinds match the list against their shape.
  case h_3 | h_4 => exact if_neg hlength
  case h_9 => rfl
  all_goals exact absurd rfl hlength

/-- A relational node puts in as many children as it has, and refuses every other list with a failure of
its own. -/
theorem withNodeChildren_eq (h : e.isRelational = true) (cs : List Expr) :
    e.withNodeChildren cs = if cs.length = e.children.length then .ok (e.setChildren cs)
      else .error (e.wrongNodeChildren cs) := by
  split
  · rename_i hlength
    exact withNodeChildren_of_length h hlength
  · rename_i hlength
    exact withNodeChildren_of_length_ne hlength

/-- A relational node gives the same when it is rebuilt on its own. -/
theorem withNodeChildren_eq_ok (h : e.isRelational = true) :
    e.withNodeChildren cs = .ok r ↔ e.withChildren cs = .ok r := by
  rw [withNodeChildren_eq h, withChildren_eq_ok]
  split
  · rename_i hlength
    simp only [hlength, Except.ok.injEq, true_and, eq_comm]
  · rename_i hlength
    simp only [hlength, false_and, reduceCtorEq]

/-- A node can be rebuilt exactly from the lists that are as long as that of its children. Then the list
is what the children are, the kind stays, and to rebuild from the old children undoes it. To rebuild a
node from its own children changes nothing. A relational node on its own takes the same lists and gives
the same node. -/
theorem rebuilding_lawful (e : Expr) (cs : List Expr) :
    ((∃ r, e.withChildren cs = .ok r) ↔ cs.length = e.children.length) ∧
    (∀ r, e.withChildren cs = .ok r → r.children = cs ∧ r.kindName = e.kindName ∧
      r.withChildren e.children = .ok e) ∧
    e.withChildren e.children = .ok e ∧
    (e.isRelational = true → ∀ r, e.withNodeChildren cs = .ok r ↔ e.withChildren cs = .ok r) := by
  refine ⟨?_, ?_, ?_, fun h r => withNodeChildren_eq_ok h⟩
  · constructor
    · rintro ⟨r, hr⟩
      exact (withChildren_eq_ok.mp hr).1
    · intro h
      exact ⟨_, withChildren_eq_ok.mpr ⟨h, rfl⟩⟩
  · intro r hr
    obtain ⟨h, rfl⟩ := withChildren_eq_ok.mp hr
    exact ⟨children_setChildren h, kindName_setChildren e cs, withChildren_undo h⟩
  · exact withChildren_eq_ok.mpr ⟨rfl, (setChildren_children e).symm⟩

/-- Orders by their status, with a selector for the result. -/
def ordersByStatus : Expr :=
  .pivotTable ⟨1⟩ (.baseTable ⟨0⟩ (some "sales") "orders" "Order")
    (.lambda [⟨"o", .entity "Order"⟩] (.member (.param ⟨"o", .entity "Order"⟩) "Status" .utf8))
    (.lambda [⟨"o", .entity "Order"⟩] (.member (.param ⟨"o", .entity "Order"⟩) "Total" .float64))
    (some (.lambda [⟨"s", .utf8⟩, ⟨"v", .float64⟩] (.param ⟨"v", .float64⟩)))

/-- The pivot with its selector takes four children, on its own too, and gives its old ones back. -/
theorem rebuilding_of_ordersByStatus :
    ∃ r, ordersByStatus.withChildren (ordersByStatus.children.reverse) = .ok r ∧
      ordersByStatus.isRelational = true ∧ r.children = ordersByStatus.children.reverse ∧
      r.kindName = "PivotTable" ∧ r.withChildren ordersByStatus.children = .ok ordersByStatus ∧
      ordersByStatus.withNodeChildren (ordersByStatus.children.reverse) = .ok r := by
  obtain ⟨hsucceeds, hlaws, -, hnode⟩ :=
    rebuilding_lawful ordersByStatus ordersByStatus.children.reverse
  obtain ⟨r, hr⟩ := hsucceeds.mpr (List.length_reverse ..)
  obtain ⟨hchildren, hkind, hundo⟩ := hlaws r hr
  exact ⟨r, hr, rfl, hchildren, hkind, hundo, (hnode rfl r).mpr hr⟩

end QueryLowering.Expr
