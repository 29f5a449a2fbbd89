import QueryLowering.Proofs.Everywhere
import QueryLowering.Proofs.Unfolding
import QueryLowering.Proofs.ValidModel

/-!
What becomes of comparisons for equality. There are four outcomes, the same for both operators: the
comparison is refused, it is no matter of entities, it is one of two nulls, or it becomes one test for
each property of a key.
-/

namespace QueryLowering.Pass.KeyComparison

open QueryLowering.Expr Model

variable {model : Model} {left right : Expr}

/-- What is asked of one property of the key: whether it is null, if one of the operands is the null
literal, and otherwise how it compares on both sides. -/
def keyTest (model : Model) (mode : Mode) (left right : Expr) (key : Property) : Expr :=
  if right.isNullConstant then .unary mode.testNull (keyAccess model left key)
  else if left.isNullConstant then .unary mode.testNull (keyAccess model right key)
  else .binary mode.compare (keyAccess model left key) (keyAccess model right key)

/-- The operand is of the entity type, or it is the null literal. -/
def IsEntityOrNull (name : String) (e : Expr) : Prop :=
  e.isNullConstant = true ∨ operandEntity? e = some name

/-- A comparison of the operands is refused in the same words for either operator; the failure may name
any node. -/
def Refused (model : Model) (left right : Expr) (kind : Failure.Kind) (message : String) : Prop :=
  ∀ equal node, ∃ f, compare model equal left right node = .error f ∧ f.kind = kind ∧
    f.message = message

/-- What becomes of a comparison, whichever the operator is and whatever node is reported. -/
inductive Outcome (model : Model) (left right : Expr) : Prop where
  /-- No comparison of the operands makes sense. -/
  | refused (kind : Failure.Kind) (message : String) (h : Refused model left right kind message)
  /-- Neither operand is an entity, and they are not two nulls of which one is typed as an entity. -/
  | unrelated (hleft : operandEntity? left = none) (hright : operandEntity? right = none)
      (htypes : left.isNullConstant = true → right.isNullConstant = true →
        left.type.entityName? = none ∧ right.type.entityName? = none)
      (h : ∀ equal node, compare model equal left right node = .ok none)
  /-- Two nulls are compared, of which one is typed as an entity. -/
  | nulls (hleft : left.isNullConstant = true) (hright : right.isNullConstant = true)
      (h : ∀ equal node, compare model equal left right node =
        .ok (some (.literal (.boolean equal))))
  /-- An entity is compared with another one or with null, by the properties of its key. -/
  | keys (entity : Entity) (hentity : model.entity? entity.name = some entity)
      (hleft : IsEntityOrNull entity.name left) (hright : IsEntityOrNull entity.name right)
      (hsome : left.isNullConstant = false ∨ right.isNullConstant = false)
      (h : ∀ equal node, compare model equal left right node =
        .ok (Expr.foldBinary? (Mode.of equal).combine
          (entity.keyProperties.map (keyTest model (.of equal) left right))))

theorem isNullConstant_of_operandEntity? {e : Expr} {name : String}
    (h : operandEntity? e = some name) : e.isNullConstant = false := by
  unfold operandEntity? at h
  split at h
  · cases h
  · rename_i hnull
    simpa using hnull

theorem entity_eq_some {name : String} {e : Entity} (h : model.entity? name = some e) (node : Expr) :
    entity model name node = .ok e := by
  rw [entity, h]

theorem entity_eq_none {name : String} (h : model.entity? name = none) (node : Expr) :
    entity model name node = .error (unknownEntity name node) := by
  rw [entity, h]

theorem keyTest_of_entities (hleft : left.isNullConstant = false)
    (hright : right.isNullConstant = false) (mode : Mode) :
    keyTest model mode left right = fun key =>
      .binary mode.compare (keyAccess model left key) (keyAccess model right key) := by
  funext key
  simp [keyTest, hleft, hright]

theorem keyTest_of_right_null (hright : right.isNullConstant = true) (mode : Mode) :
    keyTest model mode left right = fun key => .unary mode.testNull (keyAccess model left key) := by
  funext key
  simp [keyTest, hright]

theorem keyTest_of_left_null (hleft : left.isNullConstant = true)
    (hright : right.isNullConstant = false) (mode : Mode) :
    keyTest model mode left right = fun key => .unary mode.testNull (keyAccess model right key) := by
  funext key
  simp [keyTest, hleft, hright]

/-- Two operands of entity types. -/
theorem outcome_of_entities {l r : String} (hl : operandEntity? left = some l)
    (hr : operandEntity? right = some r) : Outcome model left right := by
  have hleft := isNullConstant_of_operandEntity? hl
  have hright := isNullConstant_of_operandEntity? hr
  by_cases hsame : l = r
  · subst hsame
    cases hentity : model.entity? l with
    | none =>
      refine .refused .unsupportedShape ("Entity type " ++ l ++ " is not in the model") ?_
      intro equal node
      refine ⟨unknownEntity l node, ?_, rfl, rfl⟩
      simp only [compare, hleft, hl, hr, entity_eq_none hentity]
      rfl
    | some e =>
      cases name_of_entity? hentity
      refine .keys e hentity (.inr hl) (.inr hr) (.inl hleft) fun equal node => ?_
      simp only [compare, hleft, hl, hr, entity_eq_some hentity, compareKeys,
        keyTest_of_entities hleft hright]
      rfl
  · refine .refused .incompatibleEntities ("Cannot compare entities of type " ++ l ++ " and " ++ r) ?_
    intro equal node
    exact ⟨incompatible l r node, by simp [compare, hleft, hl, hr, hsame], rfl, rfl⟩

/-- Comparing an entity with anything that is not one, which is refused unless it is the null
literal. -/
theorem compareWithNull_cases (model : Model) (name : String) (e other : Expr) :
    (∃ kind message, ∀ equal node, ∃ f,
      compareWithNull model (.of equal) name e other node = .error f ∧ f.kind = kind ∧
        f.message = message) ∨
    ∃ entity, model.entity? name = some entity ∧ other.isNullConstant = true ∧
      ∀ equal node, compareWithNull model (.of equal) name e other node =
        .ok (Expr.foldBinary? (Mode.of equal).combine
          (entity.keyProperties.map fun key =>
            .unary (Mode.of equal).testNull (keyAccess model e key))) := by
  cases hother : other.isNullConstant with
  | false =>
    refine .inl ⟨.unsupportedShape,
      "Cannot compare entity of type " ++ name ++ " with a non-entity value", fun equal node => ?_⟩
    exact ⟨notAnEntity name node, by simp [compareWithNull, hother], rfl, rfl⟩
  | true =>
    cases hentity : model.entity? name with
    | none =>
      refine .inl ⟨.unsupportedShape, "Entity type " ++ name ++ " is not in the model", ?_⟩
      intro equal node
      refine ⟨unknownEntity name node, ?_, rfl, rfl⟩
      simp only [compareWithNull, hother, entity_eq_none hentity]
      rfl
    | some entity =>
      refine .inr ⟨entity, rfl, rfl, fun equal node => ?_⟩
      simp only [compareWithNull, hother, entity_eq_some hentity, testKeys]
      rfl

/-- Every comparison has one of the outcomes. -/
theorem outcome (model : Model) (left right : Expr) : Outcome model left right := by
  -- An operand with an entity is not null, so the two entities decide, unless there are none.
  cases hl : operandEntity? left with
  | none =>
    cases hr : operandEntity? right with
    | none =>
      by_cases hnulls : left.isNullConstant = true ∧ right.isNullConstant = true
      · by_cases htyped : left.type.entityName?.isSome = true ∨ right.type.entityName?.isSome = true
        · refine .nulls hnulls.1 hnulls.2 fun equal node => ?_
          rw [compare, if_pos hnulls, if_pos htyped]
        · refine .unrelated hl hr (fun _ _ => by simpa using htyped) fun equal node => ?_
          rw [compare, if_pos hnulls, if_neg htyped]
      · refine .unrelated hl hr (fun hleft hright => absurd ⟨hleft, hright⟩ hnulls) ?_
        intro equal node
        rw [compare, if_neg hnulls, hl, hr]
    | some name =>
      have hright := isNullConstant_of_operandEntity? hr
      have hcompare : ∀ equal node, compare model equal left right node =
          compareWithNull model (.of equal) name right left node := by
        intro equal node
        simp [compare, hright, hl, hr]
      rcases compareWithNull_cases model name right left with ⟨kind, message, h⟩ |
        ⟨entity, hentity, hleft, h⟩
      · exact .refused kind message fun equal node => hcompare equal node ▸ h equal node
      · cases name_of_entity? hentity
        refine .keys entity hentity (.inl hleft) (.inr hr) (.inr hright) fun equal node => ?_
        rw [hcompare, h, keyTest_of_left_null hleft hright]
  | some name =>
    have hleft := isNullConstant_of_operandEntity? hl
    cases hr : operandEntity? right with
    | none =>
      have hcompare : ∀ equal node, compare model equal left right node =
          compareWithNull model (.of equal) name left right node := by
        intro equal node
        simp [compare, hleft, hl, hr]
      rcases compareWithNull_cases model name left right with ⟨kind, message, h⟩ |
        ⟨entity, hentity, hright, h⟩
      · exact .refused kind message fun equal node => hcompare equal node ▸ h equal node
      · cases name_of_entity? hentity
        refine .keys entity hentity (.inr hl) (.inl hright) (.inl hleft) fun equal node => ?_
        rw [hcompare, h, keyTest_of_right_null hright]
    | some name' => exact outcome_of_entities hl hr

/-- What is put in for a comparison is a truth value or a conjunction or disjunction of tests. -/
theorem compare_eq_some {equal : Bool} {node r : Expr}
    (h : compare model equal left right node = .ok (some r)) :
    r = .literal (.boolean equal) ∨ ∃ entity ∈ model.entities,
      foldBinary? (Mode.of equal).combine
        (entity.keyProperties.map (keyTest model (.of equal) left right)) = some r := by
  cases outcome model left right with
  | refused kind message hrefused =>
    obtain ⟨f, hf, -⟩ := hrefused equal node
    cases hf.symm.trans h
  | unrelated _ _ _ hnone => cases (hnone equal node).symm.trans h
  | nulls _ _ hnulls => exact .inl (Option.some.inj (Except.ok.inj (h.symm.trans (hnulls equal node))))
  | keys entity hentity _ _ _ hkeys =>
    exact .inr ⟨entity, List.mem_of_find?_eq_some hentity,
      Except.ok.inj ((hkeys equal node).symm.trans h)⟩

theorem rule_compare (model : Model) (equal : Bool) (left right : Expr) :
    rule model (.binary (Mode.of equal).compare left right) =
      compare model equal left right (.binary (Mode.of equal).compare left right) := by
  cases equal <;> rfl

theorem foreignKeyProperty?_mem {target : Expr} {name : String} {key p : Property}
    (h : foreignKeyProperty? model target name key = some p) :
    ∃ entity ∈ model.entities, p ∈ entity.properties := by
  unfold foreignKeyProperty? at h
  obtain ⟨declaring, hdeclaring, h⟩ := Option.bind_eq_some_iff.mp h
  obtain ⟨declaringName, -, hentity⟩ := Option.bind_eq_some_iff.mp hdeclaring
  obtain ⟨n, -, h⟩ := Option.bind_eq_some_iff.mp h
  split at h
  · obtain ⟨column, -, hp⟩ := Option.bind_eq_some_iff.mp h
    exact ⟨declaring, List.mem_of_find?_eq_some hentity, List.mem_of_find?_eq_some hp⟩
  · cases h

/-- A key is read as a property, from the entity itself or from the row that refers to it. -/
theorem keyAccess_eq (model : Model) (e : Expr) (key : Property) :
    ∃ target p, keyAccess model e key = .member target p.name p.type ∧
      (target = e ∨ target ∈ e.children) ∧
      (p = key ∨ ∃ entity ∈ model.entities, p ∈ entity.properties) := by
  unfold keyAccess
  split
  · rename_i target name type
    split
    · rename_i p hp
      exact ⟨target, p, rfl, .inr List.mem_cons_self, .inr (foreignKeyProperty?_mem hp)⟩
    · exact ⟨_, key, rfl, .inl rfl, .inl rfl⟩
  · exact ⟨e, key, rfl, .inl rfl, .inl rfl⟩

/-- Every node of what the rule puts in has a property if the children of the node have it, and the
nodes have it that make up a test. -/
theorem everywhere_of_rule {Q : Expr → Prop} {n r : Expr}
    (hliteral : ∀ b, Q (.literal (.boolean b))) (hmember : ∀ e name type, Q (.member e name type))
    (hnull : ∀ op e, Q (.unary op e))
    (hcombine : ∀ equal l r, Q (.binary (Mode.of equal).combine l r))
    (hcompare : ∀ entity ∈ model.entities, ∀ key ∈ entity.keyProperties, ∀ equal l r,
      Q (.binary (Mode.of equal).compare (keyAccess model l key) (keyAccess model r key)))
    (hn : ∀ c ∈ n.children, c.Everywhere Q) (h : rule model n = .ok (some r)) :
    r.Everywhere Q := by
  obtain ⟨equal, left, right, rfl, hrule⟩ := rule_eq_some h
  have haccess : ∀ e, e.Everywhere Q → ∀ key, (keyAccess model e key).Everywhere Q := by
    intro e he key
    obtain ⟨target, p, heq, htarget, -⟩ := keyAccess_eq model e key
    have hchild : target.Everywhere Q := by
      rcases htarget with rfl | htarget
      · exact he
      · exact he.child htarget
    rw [heq]
    exact everywhere_iff.mpr ⟨hmember _ _ _, by simpa [children] using hchild⟩
  have hleft := haccess left (hn left (by simp [children]))
  have hright := haccess right (hn right (by simp [children]))
  rcases compare_eq_some hrule with rfl | ⟨entity, hentity, hfold⟩
  · exact everywhere_of_leaf rfl (hliteral equal)
  · refine of_foldBinary? (fun l r hl hr => ?_) (List.forall_mem_map.mpr fun key hkey => ?_) hfold
    · exact everywhere_iff.mpr ⟨hcombine equal l r, by simpa [children] using ⟨hl, hr⟩⟩
    · unfold keyTest
      split
      · exact everywhere_iff.mpr ⟨hnull _ _, by simpa [children] using hleft key⟩
      split
      · exact everywhere_iff.mpr ⟨hnull _ _, by simpa [children] using hright key⟩
      · exact everywhere_iff.mpr ⟨hcompare entity hentity key hkey equal left right,
          by simpa [children] using ⟨hleft key, hright key⟩⟩

end QueryLowering.Pass.KeyComparison
