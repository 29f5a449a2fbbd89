import Mathlib
import QueryLowering.Proofs.GuardPlaces
import QueryLowering.Sample

/-!
Removal of null guards is sound. Expressions are given values by an interpretation of which only the
null tests and the conditionals are fixed. If rows, members and constants that the model says are never
null are not null, then neither is what a removed guard tests: so the test picks the branch that is
left.
-/

namespace QueryLowering.Pass.NullGuard

open QueryLowering.Expr

/-- An interpretation of expressions by values. Tests for null and comparisons with null hold as they
should; all else is free. -/
structure Interpretation (V : Type) where
  null : V
  holds : V → Bool
  const : Constant Expr → DataType → V
  member : V → String → DataType → V
  unary : UnaryOp → V → V
  binary : BinaryOp → V → V → V
  other : (Param → V) → Expr → V
  const_null : ∀ c type, c.isNull = true → const c type = null
  isNull : ∀ v, holds (unary .isNull v) = true ↔ v = null
  isNotNull : ∀ v, holds (unary .isNotNull v) = true ↔ v ≠ null
  eq : ∀ v w, v = null ∨ w = null → (holds (binary .eq v w) = true ↔ v = w)
  notEq : ∀ v w, v = null ∨ w = null → (holds (binary .notEq v w) = true ↔ v ≠ w)

/-- The value of an expression, given those of the parameters. -/
def Interpretation.eval {V : Type} (I : Interpretation V) (ρ : Param → V) : Expr → V
  | .const c type => I.const c type
  | .param p => ρ p
  | .member target name type => I.member (I.eval ρ target) name type
  | .unary op operand => I.unary op (I.eval ρ operand)
  | .binary op left right => I.binary op (I.eval ρ left) (I.eval ρ right)
  | .cond test whenTrue whenFalse _ =>
    if I.holds (I.eval ρ test) then I.eval ρ whenTrue else I.eval ρ whenFalse
  | e => I.other ρ e

/-- The member of a row of an entity type is never null: a property that is not nullable, or else a
navigation that is required or leads to many rows. -/
inductive NeverNull (entity : Entity) (name : String) : Prop
  | property {p : Property} :
      entity.property? name = some p → p.nullable = false → NeverNull entity name
  | navigation {n : QueryLowering.Navigation} :
      entity.property? name = none → entity.navigation? name = some n →
        n.cardinality = .many ∨ n.required = true → NeverNull entity name

theorem memberNonNull_iff {entity : Entity} {name : String} :
    memberNonNull entity name = true ↔ NeverNull entity name := by
  unfold memberNonNull
  constructor
  · intro h
    split at h
    · rename_i p _ hp
      exact .property hp (by simpa using h)
    · rename_i n hp hn
      exact .navigation hp hn (by simpa using h)
    · cases h
  · rintro (⟨hp, hnullable⟩ | ⟨hp, hn, hrequired⟩)
    · rw [hp]
      simpa using hnullable
    · rw [hp, hn]
      simpa using hrequired

/-- At the place, all is not null that should not be by the model and by the bindings. -/
structure Interpretation.Respects {V : Type} (I : Interpretation V) (model : Model) (P : Place)
    (ρ : Param → V) : Prop where
  row : ∀ p : Param, p.type.entityName?.isSome = true → (∀ b ∈ P.binding? p.name, ¬ b.MayMiss) →
    ρ p ≠ I.null
  member : ∀ (target : Expr) (name : String) (type : DataType) (entity : Entity),
    target.type.entityName?.bind model.entity? = some entity → NeverNull entity name →
      I.eval ρ target ≠ I.null → I.eval ρ (.member target name type) ≠ I.null
  scalar : ∀ v type, v.isNull = false → I.eval ρ (.const (.scalar v) type) ≠ I.null
  list : ∀ vs type, I.eval ρ (.const (.list vs) type) ≠ I.null
  entitySet : ∀ entity type, I.eval ρ (.const (.entitySet entity) type) ≠ I.null
  object : ∀ members, I.eval ρ (.object members) ≠ I.null

section Soundness

variable {V : Type} {I : Interpretation V} {model : Model} {P : Place} {ρ : Param → V}
  {e test whenTrue whenFalse : Expr} {type : DataType}

/-- What is seen not to be null is not null. -/
theorem eval_ne_null (hI : I.Respects model P ρ) (h : nonNull model P.scope e = true) :
    I.eval ρ e ≠ I.null := by
  induction e using childInduction with
  | step e ih =>
    cases e with
    | const c type =>
      cases c with
      | scalar v => exact hI.scalar v type (by simpa [nonNull] using h)
      | list vs => exact hI.list vs type
      | entitySet entity => exact hI.entitySet entity type
      | delegate => cases h
    | param p =>
      rw [nonNull, Bool.and_eq_true, Bool.not_eq_true'] at h
      refine hI.row p h.1 fun b hb hmiss => ?_
      exact Bool.eq_false_iff.mp h.2 (Place.isOptional_scope_iff.mpr ⟨b, hb, hmiss⟩)
    | member target name type =>
      rw [nonNull, Bool.and_eq_true] at h
      have htarget := ih target (by simp [children]) h.2
      have hmember := h.1
      split at hmember
      · rename_i entity hentity
        exact hI.member target name type entity hentity (memberNonNull_iff.mp hmember) htarget
      · cases hmember
    | object members => exact hI.object members
    | _ => cases h

/-- What the value of an expression can be told from, once guards have been removed from it. -/
structure Told (I : Interpretation V) (model : Model) (P : Place) (ρ : Param → V) (e r : Expr) :
    Prop where
  ne_null : nonNull model P.scope r = true → I.eval ρ e ≠ I.null
  row : nonNull model P.scope r = true → r.type.entityName?.isSome = true →
    I.eval ρ e = I.eval ρ r
  eq_null : r.isNullConstant = true → I.eval ρ e = I.null
  test : ∀ checked isNull, nullTest? r = some (checked, isNull) →
    nonNull model P.scope checked = true → I.holds (I.eval ρ e) = !isNull

/-- Nothing is to be told where a node is left that is neither known not to be null, nor null, nor a
test. -/
theorem told_of_vacuous {r : Expr} (hnonNull : nonNull model P.scope r = false)
    (hnull : r.isNullConstant = false) (htest : nullTest? r = none) : Told I model P ρ e r where
  ne_null h := by rw [hnonNull] at h; cases h
  row h := by rw [hnonNull] at h; cases h
  eq_null h := by rw [hnull] at h; cases h
  test checked isNull h := by rw [htest] at h; cases h

theorem told_of_kindName {r : Expr}
    (h : r.kindName ∉ ["Constant", "Parameter", "Member", "Unary", "Binary", "New"]) :
    Told I model P ρ e r := by
  cases r with
  | const | param | member | unary | binary | object => simp [kindName] at h
  | _ => exact told_of_vacuous rfl rfl rfl

theorem told_self (hI : I.Respects model P ρ) (htest : nullTest? e = none) :
    Told I model P ρ e e where
  ne_null := eval_ne_null hI
  row _ _ := rfl
  eq_null h := by
    cases e with
    | const c type => exact I.const_null c type h
    | _ => cases h
  test checked isNull h := by rw [htest] at h; cases h

theorem told_object (hI : I.Respects model P ρ) (members members' : List (String × Expr)) :
    Told I model P ρ (.object members) (.object members') :=
  ⟨fun _ => hI.object members, nofun, nofun, nofun⟩

theorem told_member {target r : Expr} (hI : I.Respects model P ρ) (h : Told I model P ρ target r)
    (name : String) (type : DataType) :
    Told I model P ρ (.member target name type) (.member r name type) := by
  -- That the target is not null does not say what its member is: for that it has to be the same row.
  have hsame : nonNull model P.scope (.member r name type) = true →
      I.eval ρ (.member target name type) = I.eval ρ (.member r name type) := by
    intro hmember
    rw [nonNull, Bool.and_eq_true] at hmember
    have hentity : r.type.entityName?.isSome = true := by
      cases hentity : r.type.entityName? with
      | none =>
        rw [hentity] at hmember
        cases hmember.1
      | some entity => rfl
    rw [Interpretation.eval, Interpretation.eval, h.row hmember.2 hentity]
  refine ⟨fun hmember => ?_, fun hmember _ => hsame hmember, nofun, nofun⟩
  rw [hsame hmember]
  exact eval_ne_null hI hmember

theorem told_unary {operand r : Expr} (h : Told I model P ρ operand r) (op : UnaryOp) :
    Told I model P ρ (.unary op operand) (.unary op r) := by
  refine ⟨nofun, nofun, nofun, fun checked isNull htest hchecked => ?_⟩
  have hne := h.ne_null
  rw [Interpretation.eval]
  cases nullTest_of_nullTest? htest with
  | isNull => exact Bool.eq_not_of_ne (mt (I.isNull _).mp (hne hchecked))
  | isNotNull => exact (I.isNotNull _).mpr (hne hchecked)

/-- A comparison with null has the outcome for null exactly if it compares null. -/
theorem holds_compare (I : Interpretation V) {op : BinaryOp} {v w : V}
    (hop : op.isEquality = true) (hnull : v = I.null ∨ w = I.null) :
    I.holds (I.binary op v w) = (op == .eq) ↔ v = w := by
  cases op with
  | eq => exact I.eq v w hnull
  | notEq =>
    change I.holds (I.binary .notEq v w) = false ↔ v = w
    rw [Bool.eq_false_iff, ne_eq, I.notEq v w hnull, not_not]
  | _ => cases hop

theorem told_binary {left right l r : Expr} (hleft : Told I model P ρ left l)
    (hright : Told I model P ρ right r) (op : BinaryOp) :
    Told I model P ρ (.binary op left right) (.binary op l r) := by
  refine ⟨nofun, nofun, nofun, fun checked isNull htest hchecked => ?_⟩
  rw [Interpretation.eval]
  cases nullTest_of_nullTest? htest with
  | left hop hnull =>
    have hvalue : I.eval ρ right = I.null := hright.eq_null hnull
    have hne : I.eval ρ left ≠ I.eval ρ right := hvalue ▸ hleft.ne_null hchecked
    exact Bool.eq_not_of_ne (mt (holds_compare I hop (.inr hvalue)).mp hne)
  | right hop hnull =>
    have hvalue : I.eval ρ left = I.null := hleft.eq_null hnull
    have hne : I.eval ρ left ≠ I.eval ρ right := hvalue ▸ (hright.ne_null hchecked).symm
    exact Bool.eq_not_of_ne (mt (holds_compare I hop (.inl hvalue)).mp hne)

theorem eval_cond {isNull : Bool} (h : I.holds (I.eval ρ test) = !isNull) :
    I.eval ρ (.cond test whenTrue whenFalse type) =
      I.eval ρ (if isNull then whenFalse else whenTrue) := by
  rw [Interpretation.eval, h]
  cases isNull <;> rfl

theorem told_cond {t a b : Expr} (htest : Told I model P ρ test t)
    (htrue : Told I model P ρ whenTrue a) (hfalse : Told I model P ρ whenFalse b)
    (type : DataType) :
    Told I model P ρ (.cond test whenTrue whenFalse type) (unguard model P.scope t a b type) := by
  rcases unguard_eq model P.scope t a b type with
    ⟨hkept, -⟩ | ⟨checked, value, hguarded, hchecked, -, hcut⟩
  · rw [hkept]
    exact told_of_kindName (by simp [kindName])
  · obtain ⟨isNull, hnullTest, -, rfl⟩ := guarded?_eq_some_iff.mp hguarded
    -- The test picks the branch that is left, so what is told of the branch is told of the guard.
    have hbranch : Told I model P ρ (if isNull then whenFalse else whenTrue)
        (if isNull then b else a) := by
      cases isNull with
      | true => exact hfalse
      | false => exact htrue
    have heval : I.eval ρ (.cond test whenTrue whenFalse type) =
        I.eval ρ (if isNull then whenFalse else whenTrue) :=
      eval_cond (htest.test checked isNull hnullTest hchecked)
    rw [hcut]
    exact ⟨heval ▸ hbranch.ne_null, heval ▸ hbranch.row, heval ▸ hbranch.eq_null,
      heval ▸ hbranch.test⟩

/-- What removal makes of an expression tells of the value that the expression had. -/
theorem told_rewritten (hI : I.Respects model P ρ) :
    Told I model P ρ e (rewritten model P.below e) := by
  -- Nothing is bound between a guard and what it tests, so the place stays the same all the way down.
  induction e using childInduction with
  | step e ih =>
    cases e with
    | const | param =>
      rw [rewritten_of_leaf rfl]
      exact told_self hI rfl
    | member target name type =>
      rw [rewritten_of_kindName (by simp [kindName])]
      exact told_member hI (ih target (by simp [children])) name type
    | unary op operand =>
      rw [rewritten_of_kindName (by simp [kindName])]
      exact told_unary (ih operand (by simp [children])) op
    | binary op left right =>
      rw [rewritten_of_kindName (by simp [kindName])]
      exact told_binary (ih left (by simp [children])) (ih right (by simp [children])) op
    | cond test whenTrue whenFalse type =>
      rw [rewritten_eq]
      exact told_cond (ih test (by simp [children])) (ih whenTrue (by simp [children]))
        (ih whenFalse (by simp [children])) type
    | object members =>
      rw [rewritten_of_kindName (by simp [kindName])]
      exact told_object hI members _
    | _ =>
      refine told_of_kindName ?_
      rw [rewritten_of_kindName (by simp [kindName]), kindName_setChildren]
      simp [kindName]

/-- Rewriting does not turn a test for null into one for anything but null. -/
theorem isNull_rewritten {tested checked : Expr} {isNull isNull' : Bool}
    (h : NullTest test tested isNull)
    (h' : NullTest (rewritten model P.below test) checked isNull') : isNull = isNull' := by
  cases h with
  | isNull | isNotNull =>
    rw [rewritten_of_kindName (by simp [kindName])] at h'
    cases h'
    rfl
  | left | right =>
    rw [rewritten_of_kindName (by simp [kindName])] at h'
    cases h' <;> rfl

/-- A test has the outcome for null exactly if what it tests is null. -/
theorem holds_eq_iff {tested : Expr} {isNull : Bool} (h : NullTest test tested isNull) :
    I.holds (I.eval ρ test) = isNull ↔ I.eval ρ tested = I.null := by
  have hconst : ∀ {c : Expr}, c.isNullConstant = true → I.eval ρ c = I.null := by
    intro c hc
    cases c with
    | const c type => exact I.const_null c type hc
    | _ => cases hc
  cases h with
  | isNull => exact I.isNull _
  | isNotNull =>
    rw [Interpretation.eval, Bool.eq_false_iff, ne_eq, I.isNotNull, not_not]
  | left hop hnull =>
    rw [Interpretation.eval, ← hconst hnull]
    exact holds_compare I hop (.inr (hconst hnull))
  | right hop hnull =>
    rw [Interpretation.eval, ← hconst hnull, eq_comm (a := I.eval ρ tested)]
    exact holds_compare I hop (.inl (hconst hnull))

/-- Wherever a guard is replaced by one of its branches, what it is found to test is not null, nor is
what it tests as it stands in the tree, and the test picks the branch that is left. -/
theorem removed_guard_picks_branch (hat : At e P (.cond test whenTrue whenFalse type))
    (hremoved : rewritten model P (.cond test whenTrue whenFalse type) ≠
      .cond (rewritten model P.below test) (rewritten model P.below whenTrue)
        (rewritten model P.below whenFalse) type)
    (hI : I.Respects model P ρ) :
    Visits e (P.scope, P.optional) (.cond test whenTrue whenFalse type) ∧
      ∃ checked isNull, nullTest? (rewritten model P.below test) = some (checked, isNull) ∧
        I.eval ρ checked ≠ I.null ∧
        (∀ tested holds, nullTest? test = some (tested, holds) → I.eval ρ tested ≠ I.null) ∧
        I.holds (I.eval ρ test) = !isNull ∧
        rewritten model P (.cond test whenTrue whenFalse type) =
          rewritten model P.below (if isNull then whenFalse else whenTrue) ∧
        I.eval ρ (.cond test whenTrue whenFalse type) =
          I.eval ρ (if isNull then whenFalse else whenTrue) := by
  refine ⟨hat.visits, ?_⟩
  -- The guard is judged once its parts have been rewritten.
  have hcond : rewritten model P (.cond test whenTrue whenFalse type) =
      unguard model P.scope (rewritten model P.below test) (rewritten model P.below whenTrue)
        (rewritten model P.below whenFalse) type := rewritten_eq model P _
  rw [hcond] at hremoved ⊢
  rcases unguard_eq model P.scope (rewritten model P.below test) (rewritten model P.below whenTrue)
      (rewritten model P.below whenFalse) type with
    ⟨hkept, -⟩ | ⟨checked, value, hguarded, hchecked, -, hcut⟩
  · exact absurd hkept hremoved
  · obtain ⟨isNull, hnullTest, -, rfl⟩ := guarded?_eq_some_iff.mp hguarded
    have hholds : I.holds (I.eval ρ test) = !isNull :=
      (told_rewritten hI).test checked isNull hnullTest hchecked
    refine ⟨checked, isNull, hnullTest, eval_ne_null hI hchecked, ?_, hholds, ?_,
      eval_cond hholds⟩
    · -- The test as it stands asks the same of its operand, and its outcome is not that for null.
      intro tested holds htested hnull
      have htest : NullTest test tested holds := nullTest_of_nullTest? htested
      have hflag : holds = isNull := isNull_rewritten htest (nullTest_of_nullTest? hnullTest)
      rw [(holds_eq_iff htest).mpr hnull, hflag] at hholds
      cases isNull <;> cases hholds
    · rw [hcut]
      cases isNull <;> rfl

end Soundness

/-- Tests of values that are known no better than to be null, true or neither. -/
def nullness : Interpretation (Option Bool) where
  null := none
  holds v := v == some true
  const c _ := if c.isNull then none else some false
  member v _ _ := v
  unary
    | .isNull, v => some v.isNone
    | .isNotNull, v => some v.isSome
    | _, v => v
  binary
    | .eq, v, w => some (v == w)
    | .notEq, v, w => some (v != w)
    | _, v, _ => v
  other _ _ := some false
  const_null c type h := by simp [h]
  isNull v := by simp
  isNotNull v := by cases v <;> simp
  eq v w _ := by simp
  notEq v w _ := by simp

/-- The customer of an order `o`. -/
def customerOf : Expr :=
  .member (.param ⟨"o", .entity "Order"⟩) "Customer" (.entity "Customer")

/-- The name of the customer, or null if there is none; but an order always has a customer. -/
def guardedName : Expr :=
  .cond (.binary .eq customerOf (.nullOf (.entity "Customer"))) (.nullOf .utf8)
    (.member customerOf "Name" .utf8) .utf8

def nameSelector : Argument where
  method := ⟨"Queryable", "Select", [.entity "Order", .utf8]⟩
  args := [.entitySet "Order", .quote (.lambda [⟨"o", .entity "Order"⟩] guardedName)]
  position := 1

def guardedNames : Expr := .call nameSelector.method none nameSelector.args (.queryable .utf8)

/-- In the body of the selector, `o` is its first parameter. -/
def inSelector : Place := ⟨[⟨⟨"o", .entity "Order"⟩, 0, some nameSelector⟩], none⟩

theorem nullness_respects :
    nullness.Respects Sample.model inSelector fun _ => some false where
  row _ _ _ := nofun
  member target name type entity _ _ htarget := htarget
  scalar v type h := by simp [Interpretation.eval, nullness, Constant.isNull, h]
  list vs type := by simp [Interpretation.eval, nullness, Constant.isNull]
  entitySet entity type := by simp [Interpretation.eval, nullness, Constant.isNull]
  object members := by simp [Interpretation.eval, nullness]

/-- The guard of a customer is replaced by the name of the customer, which is what it gives. -/
theorem guard_of_customer_picks_name :
    nullness.eval (fun _ => some false) customerOf ≠ none ∧
      rewritten Sample.model inSelector guardedName =
        rewritten Sample.model inSelector.below (.member customerOf "Name" .utf8) ∧
      nullness.eval (fun _ => some false) guardedName =
        nullness.eval (fun _ => some false) (.member customerOf "Name" .utf8) := by
  have hquote : At guardedNames ⟨[], some nameSelector⟩
      (.quote (.lambda [⟨"o", .entity "Order"⟩] guardedName)) :=
    .child (i := 1) .root rfl
  have hlambda := hquote.child (i := 0) rfl
  have hat : At guardedNames inSelector guardedName := hlambda.child (i := 0) rfl
  have hremoved : rewritten Sample.model inSelector guardedName = .member customerOf "Name" .utf8 :=
    by cbv
  have htest : nullTest? (rewritten Sample.model inSelector.below
      (.binary .eq customerOf (.nullOf (.entity "Customer")))) = some (customerOf, true) := by cbv
  have hgone : rewritten Sample.model inSelector guardedName ≠
      .cond (rewritten Sample.model inSelector.below
          (.binary .eq customerOf (.nullOf (.entity "Customer"))))
        (rewritten Sample.model inSelector.below (.nullOf .utf8))
        (rewritten Sample.model inSelector.below (.member customerOf "Name" .utf8)) .utf8 := by
    rw [hremoved]
    intro h
    cases h
  obtain ⟨-, checked, isNull, hfound, hchecked, -, -, hleft, heval⟩ :=
    removed_guard_picks_branch hat hgone nullness_respects
  cases htest.symm.trans hfound
  exact ⟨hchecked, hleft, heval⟩

end QueryLowering.Pass.NullGuard
