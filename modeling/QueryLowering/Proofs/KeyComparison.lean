import Mathlib
import QueryLowering.Proofs.KeyTests
import QueryLowering.Proofs.Settled.Rules
import QueryLowering.Proofs.Typing
import QueryLowering.Sample

/-!
Nothing is left to compare. Key comparison turns truth values into truth values, so all types stay. Over
a validated model every comparison of an entity has a property to go on with, and if properties are no
entities then no node of the result is a matter of entities again: a second run finds nothing to do.
-/

namespace QueryLowering

open QueryLowering.Expr

/-- The properties of a key are found, in the order of the key. -/
theorem Model.ValidEntity.map_name_keyProperties {m : Model} {e : Entity} (h : m.ValidEntity e) :
    e.keyProperties.map Property.name = e.key := by
  have hfound : ∀ names : List String, (∀ k ∈ names, (e.property? k).isSome = true) →
      (names.filterMap e.property?).map Property.name = names := by
    intro names hnames
    induction names with
    | nil => rfl
    | cons k names ih =>
      obtain ⟨hk, hnames⟩ := List.forall_mem_cons.mp hnames
      obtain ⟨p, hp⟩ := Option.isSome_iff_exists.mp hk
      have hname : p.name = k := by simpa using List.find?_some hp
      rw [List.filterMap_cons_some hp, List.map_cons, hname, ih hnames]
  exact hfound e.key h.keyProperties

theorem Model.ValidEntity.keyProperties_ne_nil {m : Model} {e : Entity} (h : m.ValidEntity e) :
    e.keyProperties ≠ [] := by
  intro hnil
  apply h.key
  rw [← h.map_name_keyProperties, hnil, List.map_nil]

theorem Entity.mem_properties_of_mem_keyProperties {e : Entity} {p : Property}
    (h : p ∈ e.keyProperties) : p ∈ e.properties := by
  obtain ⟨name, -, hp⟩ := List.mem_filterMap.mp h
  exact List.mem_of_find?_eq_some hp

/-- A key has a property, so there is something to join. -/
theorem Model.ValidEntity.exists_foldBinary? {m : Model} {e : Entity} (h : m.ValidEntity e)
    (op : BinaryOp) (test : Property → Expr) :
    ∃ x, Expr.foldBinary? op (e.keyProperties.map test) = some x := by
  cases hkeys : e.keyProperties with
  | nil => exact absurd hkeys h.keyProperties_ne_nil
  | cons key keys => exact ⟨_, rfl⟩

namespace Pass.KeyComparison

variable {model : Model} {left right : Expr}

/-- A truth value that is neither a lambda nor a quote nor the null literal. -/
structure IsTest (e : Expr) : Prop where
  plain : e.isPlain = true
  type : e.type = .boolean
  notNull : e.isNullConstant = false

theorem isTest_binary {op : BinaryOp} (hop : op.isArithmetic = false) (l r : Expr) :
    IsTest (.binary op l r) :=
  ⟨rfl, by simp [Expr.type, hop], rfl⟩

theorem isTest_keyTest (equal : Bool) (left right : Expr) (key : Property) :
    IsTest (keyTest model (.of equal) left right key) := by
  unfold keyTest
  split
  · cases equal <;> exact ⟨rfl, rfl, rfl⟩
  split
  · cases equal <;> exact ⟨rfl, rfl, rfl⟩
  · exact isTest_binary (by cases equal <;> rfl) _ _

/-- Both the node that the rule looks at and what it puts in are tests. -/
theorem isTest_of_rule {n r : Expr} (h : rule model n = .ok (some r)) : IsTest n ∧ IsTest r := by
  obtain ⟨equal, left, right, rfl, hcompare⟩ := rule_eq_some h
  refine ⟨isTest_binary (by cases equal <;> rfl) _ _, ?_⟩
  rcases compare_eq_some hcompare with rfl | ⟨entity, -, hfold⟩
  · exact ⟨rfl, rfl, rfl⟩
  · refine of_foldBinary? (fun l r _ _ => isTest_binary (by cases equal <;> rfl) l r) ?_ hfold
    exact List.forall_mem_map.mpr fun key _ => isTest_keyTest equal left right key

/-- Key comparison does not change the type of a tree. -/
theorem typedLike_run {e e' : Expr} (h : run model e = .ok e') : e'.TypedLike e := by
  refine typedLike_bottomUp (fun n r hrule => ?_) h
  obtain ⟨hn, hr⟩ := isTest_of_rule hrule
  exact typedLike_of_isPlain (hr.type.trans hn.type.symm) hr.plain hn.plain

/-- The rule leaves the node as it is. -/
def Untouched (model : Model) (n : Expr) : Prop := rule model n = .ok none

/-- Entities do not hold other entities. -/
def ScalarProperties (model : Model) : Prop :=
  ∀ entity ∈ model.entities, ∀ p ∈ entity.properties, p.type.entityName? = none

/-- Access to a key is no entity. -/
theorem operandEntity?_keyAccess (hscalar : ScalarProperties model) {entity : Entity}
    (hentity : entity ∈ model.entities) {key : Property} (hkey : key ∈ entity.keyProperties)
    (e : Expr) :
    operandEntity? (keyAccess model e key) = none := by
  obtain ⟨target, p, heq, -, hp⟩ := keyAccess_eq model e key
  rw [heq]
  rcases hp with rfl | ⟨declaring, hdeclaring, hp⟩
  · exact hscalar entity hentity p (Entity.mem_properties_of_mem_keyProperties hkey)
  · exact hscalar declaring hdeclaring p hp

theorem isNullConstant_keyAccess (e : Expr) (key : Property) :
    (keyAccess model e key).isNullConstant = false := by
  obtain ⟨target, p, heq, -⟩ := keyAccess_eq model e key
  rw [heq]
  rfl

/-- What the rule puts in is made of parts of the node and of nodes that it leaves as they are. -/
theorem everywhere_untouched_rule (hscalar : ScalarProperties model) {n r : Expr}
    (hn : ∀ c ∈ n.children, c.Everywhere (Untouched model)) (h : rule model n = .ok (some r)) :
    r.Everywhere (Untouched model) := by
  have hcompare : ∀ entity ∈ model.entities, ∀ key ∈ entity.keyProperties, ∀ equal l r,
      Untouched model
        (.binary (Mode.of equal).compare (keyAccess model l key) (keyAccess model r key)) := by
    intro entity hentity key hkey equal l r
    have hnone := operandEntity?_keyAccess hscalar hentity hkey
    rw [Untouched, rule_compare]
    simp [compare, hnone, isNullConstant_keyAccess]
  exact everywhere_of_rule (fun _ => rfl) (fun _ _ _ => rfl) (fun _ _ => rfl)
    (fun equal _ _ => by cases equal <;> rfl) hcompare hn h

/-- No node of the result is one that the rule changes. -/
theorem everywhere_untouched_run (hscalar : ScalarProperties model) {e e' : Expr}
    (h : run model e = .ok e') : e'.Everywhere (Untouched model) :=
  Rule.everywhere_none_of_bottomUp (fun _ _ => everywhere_untouched_rule hscalar) h

/-- If the operand is of an entity type, then it is the null literal, and the other operand is neither
null nor of an entity type. -/
def EntityIsNull (e other : Expr) : Prop :=
  e.type.entityName?.isSome = true →
    e.isNullConstant = true ∧ other.isNullConstant = false ∧ other.type.entityName? = none

theorem entityIsNull_of_unrelated {e other : Expr} (he : operandEntity? e = none)
    (hother : operandEntity? other = none)
    (htype : e.isNullConstant = true → other.isNullConstant = true → e.type.entityName? = none) :
    EntityIsNull e other := by
  intro hentity
  unfold operandEntity? at he hother
  have hnull : e.isNullConstant = true := by
    by_contra hnull
    rw [if_neg hnull] at he
    simp [he] at hentity
  have hnotNull : ¬ other.isNullConstant = true := by
    intro hboth
    simp [htype hnull hboth] at hentity
  rw [if_neg hnotNull] at hother
  exact ⟨hnull, by simpa using hnotNull, hother⟩

/-- A comparison that the rule leaves as it is compares no entity. -/
theorem Untouched.operands (hm : ∀ entity ∈ model.entities, model.ValidEntity entity) (equal : Bool)
    (h : Untouched model (.binary (Mode.of equal).compare left right)) :
    EntityIsNull left right ∧ EntityIsNull right left := by
  rw [Untouched, rule_compare] at h
  cases outcome model left right with
  | refused kind message hrefused =>
    obtain ⟨f, hf, -⟩ := hrefused equal (.binary (Mode.of equal).compare left right)
    cases hf.symm.trans h
  | unrelated hleft hright htypes _ =>
    exact ⟨entityIsNull_of_unrelated hleft hright fun hl hr => (htypes hl hr).1,
      entityIsNull_of_unrelated hright hleft fun hr hl => (htypes hl hr).2⟩
  | nulls _ _ hnulls => cases (hnulls equal _).symm.trans h
  | keys entity hentity _ _ _ hkeys =>
    obtain ⟨r, hr⟩ := (hm entity (List.mem_of_find?_eq_some hentity)).exists_foldBinary?
      (Mode.of equal).combine (keyTest model (.of equal) left right)
    cases hr.symm.trans (Except.ok.inj ((hkeys equal _).symm.trans h))

/-- Over a validated model whose properties are no entities, key comparison keeps the type of a tree,
leaves no comparison of an entity behind, and gives its own results back. -/
theorem run_leaves_nothing {entities : List Entity} {e e' : Expr}
    (hm : Model.ofEntities entities = .ok model) (hscalar : ScalarProperties model)
    (h : run model e = .ok e') :
    e'.type = e.type ∧
    (∀ op left right, .binary op left right ∈ e'.nodes → op.isEquality = true →
      EntityIsNull left right ∧ EntityIsNull right left) ∧
    run model e' = .ok e' := by
  have huntouched := everywhere_untouched_run hscalar h
  refine ⟨(typedLike_run h).type, fun op left right hmem hop => ?_, ?_⟩
  · have hvalid := Model.validEntity_of_ofEntities hm
    cases op with
    | eq => exact Untouched.operands hvalid true (huntouched _ hmem)
    | notEq => exact Untouched.operands hvalid false (huntouched _ hmem)
    | _ => cases hop
  · exact Rule.Settled.bottomUp_eq_self
      (huntouched.mono fun n hn => Rule.apply_eq_ok.mpr (.inl ⟨hn, rfl⟩))

/-- Does a shipment carry a line exactly if a customer is known? Two comparisons of entities are the
operands of a third one. -/
def carriesLineOfKnown : Expr :=
  .binary .eq
    (.binary .eq (.member (.param ⟨"s", .entity "Shipment"⟩) "Line" (.entity "OrderLine"))
      (.param ⟨"l", .entity "OrderLine"⟩))
    (.binary .notEq (.nullOf (.entity "Customer")) (.param ⟨"c", .entity "Customer"⟩))

/-- The same by keys: of the shipment the foreign key is read. -/
def carriesKeyOfKnown : Expr :=
  .binary .eq
    (.binary .and
      (.binary .eq (.member (.param ⟨"s", .entity "Shipment"⟩) "OrderId" .int32)
        (.member (.param ⟨"l", .entity "OrderLine"⟩) "OrderId" .int32))
      (.binary .eq (.member (.param ⟨"s", .entity "Shipment"⟩) "LineNo" .int32)
        (.member (.param ⟨"l", .entity "OrderLine"⟩) "LineNo" .int32)))
    (.unary .isNotNull (.member (.param ⟨"c", .entity "Customer"⟩) "Id" .int32))

theorem run_leaves_nothing_of_line :
    Model.ofEntities [Sample.shipment, Sample.orderLine, Sample.order, Sample.customer,
        Sample.address] = .ok Sample.model ∧
      ScalarProperties Sample.model ∧
      run Sample.model carriesLineOfKnown = .ok carriesKeyOfKnown ∧
      carriesKeyOfKnown.type = carriesLineOfKnown.type ∧
      run Sample.model carriesKeyOfKnown = .ok carriesKeyOfKnown := by
  have hmodel : Model.ofEntities [Sample.shipment, Sample.orderLine, Sample.order, Sample.customer,
      Sample.address] = .ok Sample.model := by cbv
  have hscalar : ScalarProperties Sample.model := by
    unfold ScalarProperties
    decide
  have hrun : run Sample.model carriesLineOfKnown = .ok carriesKeyOfKnown := by cbv
  obtain ⟨htype, -, hagain⟩ := run_leaves_nothing hmodel hscalar hrun
  exact ⟨hmodel, hscalar, hrun, htype, hagain⟩

end Pass.KeyComparison

end QueryLowering
