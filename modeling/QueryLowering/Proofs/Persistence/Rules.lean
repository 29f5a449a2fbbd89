import QueryLowering.Proofs.KeyTests

/-!
Persistent properties outlast local rules. The rules of the passes build their results from parts of
the node that they look at and from ordinary nodes, so what holds of all nodes of a tree holds of all
nodes of what a rule makes of it.
-/

namespace QueryLowering

open QueryLowering.Expr

variable {Q : Expr → Prop} {e r : Expr}

/-- A method whose name no marker bears is not a marker. -/
theorem marker_of?_eq_none {owner name : String} {ts : List DataType}
    (h : (Marker.all.find? fun k => k.name == name) = none) :
    Marker.of? ⟨owner, name, ts⟩ = none := by
  unfold Marker.of?
  split
  · exact h
  · rfl

namespace Operator

theorem marker_find?_of_inMemory :
    ∀ op ∈ all, op.family = .inMemory → (Marker.all.find? fun k => k.name == op.name) = none := by
  decide

/-- No operator on sequences in memory bears the name of a marker. -/
theorem marker_of?_of_inMemory {name : String} {shapes : List ArgShape}
    (h : (find? Family.inMemory.owner name shapes).isSome = true) (ts : List DataType) :
    Marker.of? ⟨Family.deferred.owner, name, ts⟩ = none := by
  obtain ⟨op, hop⟩ := Option.isSome_iff_exists.mp h
  obtain ⟨hmem, hfamily, rfl, -⟩ := find?_eq_some hop
  have hinMemory : op.family = .inMemory := Family.owner_injective hfamily
  exact marker_of?_eq_none (marker_find?_of_inMemory op hmem hinMemory)

end Operator

namespace Pass

namespace Promotion

theorem everywhere_promoteSource (hQ : HostPersistent Q) (he : e.Everywhere Q)
    (h : promoteSource e = .ok r) : r.Everywhere Q := by
  unfold promoteSource at h
  split at h
  · cases h
    exact he
  · exact hQ.callOperator (by decide) (by simpa using he) h

theorem everywhere_quoteLambda (hQ : HostPersistent Q) (he : e.Everywhere Q) :
    (quoteLambda e).Everywhere Q := by
  unfold quoteLambda
  split
  · exact hQ.quote he
  · exact he

theorem everywhere_rule (hQ : HostPersistent Q) (he : e.Everywhere Q)
    (h : rule e = .ok (some r)) : r.Everywhere Q := by
  obtain ⟨m, source, rest, type, source', rfl, howner, hfind, hsource', hcall⟩ := rule_eq_some h
  have hfind : (Operator.find? Family.inMemory.owner m.name
      ((source :: rest).map ArgShape.of)).isSome = true := by
    rw [← howner]
    exact hfind
  refine hQ.callOperator (Operator.marker_of?_of_inMemory hfind []) (fun a ha => ?_) hcall
  rcases List.mem_cons.mp ha with rfl | ha
  · exact everywhere_promoteSource hQ (he.child (by simp [children])) hsource'
  · obtain ⟨b, hb, rfl⟩ := List.mem_map.mp ha
    exact everywhere_quoteLambda hQ (he.child (by simp [children, hb]))

end Promotion

namespace Membership

theorem everywhere_comparedValue? {element : Param} {side value : Expr}
    (hvalue : value.Everywhere Q) (h : comparedValue? element side value = some r) :
    r.Everywhere Q := by
  unfold comparedValue? at h
  split at h
  · split at h
    · cases h
      exact hvalue
    · cases h
  · cases h

theorem everywhere_quantified? {name : String} {op : BinaryOp} (he : e.Everywhere Q)
    (h : quantified? name e = some (op, r)) : r.Everywhere Q := by
  unfold quantified? at h
  obtain ⟨op', -, h⟩ := Option.bind_eq_some_iff.mp h
  split at h
  · rename_i element body hlambda
    have hbody := he.lambda? hlambda
    split at h
    · cases h
    · obtain ⟨value, hvalue, hpair⟩ := Option.map_eq_some_iff.mp h
      cases hpair
      unfold soughtValue? at hvalue
      split at hvalue
      · rename_i o left right
        split at hvalue
        · rcases Option.or_eq_some_iff.mp hvalue with hvalue | ⟨-, hvalue⟩
          · exact everywhere_comparedValue? (hbody.child (by simp [children])) hvalue
          · exact everywhere_comparedValue? (hbody.child (by simp [children])) hvalue
        · cases hvalue
      · cases hvalue
  · cases h

theorem everywhere_rule (hQ : HostPersistent Q) (he : e.Everywhere Q)
    (h : rule e = .ok (some r)) : r.Everywhere Q := by
  obtain ⟨m, receiver, source, predicate, type, op, value, contains, rfl, hquantified, hcontains,
    hr⟩ := rule_eq_some h
  have hvalue := everywhere_quantified? (he.child (by simp [children])) hquantified
  have hcall : contains.Everywhere Q :=
    hQ.callOperator (marker_of?_eq_none (by decide))
      (by simpa using ⟨he.child (by simp [children]), hvalue⟩) hcontains
  rcases hr with rfl | rfl
  · exact hcall
  · exact hQ.unary hcall .not

end Membership

namespace GroupJoin

theorem everywhere_parts? {parts : Parts} (he : e.Everywhere Q) (h : parts? e = some parts) :
    ∀ a ∈ parts.args, a.Everywhere Q := by
  obtain ⟨m, receiver, outer, inner, outerKey, innerKey, selector, type, group, members, rfl, -, -, -,
    hargs⟩ := exists_of_parts? h
  intro a ha
  rw [hargs] at ha
  exact he.child (List.mem_append_right _ (List.mem_append_left [selector] ha))

theorem everywhere_joinSelector? (hQ : HostPersistent Q) {parts : Parts} {rest : List Expr}
    (hrest : ∀ a ∈ rest, a.Everywhere Q) (h : joinSelector? parts rest = some r) :
    r.Everywhere Q := by
  obtain ⟨element, -, rfl⟩ | ⟨selector, pair, inner, body, rfl, hlambda, -, rfl⟩ :=
    joinSelector?_eq_some h
  · exact hQ.lambda (hQ.param _) _
  · have hbody := (hrest selector List.mem_cons_self).lambda? hlambda
    exact hQ.lambda (hQ.substMember (hQ.param _) hbody) _

theorem everywhere_selectorFor (hQ : HostPersistent Q) (family : Family) (he : e.Everywhere Q) :
    (selectorFor family e).Everywhere Q := by
  cases family with
  | inMemory => exact he
  | deferred => exact hQ.quote he

theorem everywhere_flatJoin? (hQ : HostPersistent Q) {family : Family} {source collection : Expr}
    {rest args : List Expr} {name : String} (hsource : source.Everywhere Q)
    (hrest : ∀ a ∈ rest, a.Everywhere Q)
    (h : flatJoin? family source collection rest = some (name, args)) :
    (name = "LeftJoin" ∨ name = "Join") ∧ ∀ a ∈ args, a.Everywhere Q := by
  obtain ⟨parts, leftOuter, selector, hparts, -, -, hselector, rfl, rfl⟩ := flatJoin?_eq_some h
  refine ⟨by cases leftOuter <;> simp, fun a ha => ?_⟩
  rcases List.mem_append.mp ha with ha | ha
  · exact everywhere_parts? hsource hparts a ha
  · rw [List.mem_singleton.mp ha]
    exact everywhere_selectorFor hQ family (everywhere_joinSelector? hQ hrest hselector)

theorem everywhere_rule (hQ : HostPersistent Q) (he : e.Everywhere Q)
    (h : rule e = .ok (some r)) : r.Everywhere Q := by
  obtain ⟨m, receiver, source, collection, rest, type, family, name, args, rfl, -, hflat, hcall⟩ :=
    rule_eq_some h
  have hargs := everywhere_flatJoin? hQ (he.child (by simp [children]))
    (fun a ha => he.child (by simp [children, ha])) hflat
  refine hQ.callOperator (marker_of?_eq_none ?_) hargs.2 hcall
  rcases hargs.1 with rfl | rfl <;> decide

end GroupJoin

namespace NullGuard

theorem everywhere_unguardNode {model : Model} {Γ : Scope} (he : e.Everywhere Q) :
    (unguardNode model Γ e).Everywhere Q := by
  cases e with
  | cond test whenTrue whenFalse type =>
    rw [unguardNode]
    rcases unguard_cases model Γ test whenTrue whenFalse type with h | h | h
    · rw [h]
      exact he
    · rw [h]
      exact he.child (by simp [children])
    · rw [h]
      exact he.child (by simp [children])
  | _ => exact he

theorem everywhere_remove (hset : ∀ e cs, Q e → Q (e.setChildren cs)) {model : Model} {Γ : Scope}
    {optional : Option Nat} (he : e.Everywhere Q) :
    (remove model Γ optional e).Everywhere Q := by
  induction e using childInduction generalizing Γ optional with
  | step e ih =>
    rw [remove_eq]
    apply everywhere_unguardNode
    refine everywhere_setChildren hset he.root (by simp) fun c hc => ?_
    obtain ⟨d, hd, rfl⟩ := List.mem_map.mp hc
    have hchild : d.1 ∈ e.children := List.fst_mem_of_mem_zipIdx hd
    exact ih d.1 hchild (he.child hchild)

end NullGuard

namespace KeyComparison

theorem everywhere_rule (hQ : HostPersistent Q) {model : Model} (he : e.Everywhere Q)
    (h : rule model e = .ok (some r)) : r.Everywhere Q :=
  everywhere_of_rule (fun _ => hQ.ordinary _ rfl rfl) (fun _ _ _ => hQ.ordinary _ rfl rfl)
    (fun _ _ => hQ.ordinary _ rfl rfl) (fun _ _ _ => hQ.ordinary _ rfl rfl)
    (fun _ _ _ _ _ _ _ => hQ.ordinary _ rfl rfl) (fun _ hc => he.child hc) h

end KeyComparison

namespace MemberPushdown

theorem everywhere_access (hQ : HostPersistent Q) (he : e.Everywhere Q) (name : String)
    (type : DataType) : (access e name type).Everywhere Q := by
  unfold access
  split
  · rename_i members
    cases hlookup : members.lookup name with
    | none => exact hQ.member he _ _
    | some x =>
      exact he.child (List.mem_map.mpr ⟨(name, x), mem_of_lookup hlookup, rfl⟩)
  · exact hQ.member he _ _

theorem everywhere_projectionArgs? (hQ : HostPersistent Q) {name : String} {type : DataType}
    {args : List Expr} (he : e.Everywhere Q) (h : projectionArgs? e name type = some args) :
    ∀ a ∈ args, a.Everywhere Q := by
  obtain ⟨inner, params, body, hprojection, rfl⟩ | ⟨-, element, -, rfl⟩ := projectionArgs?_eq_some h
  · obtain ⟨m, receiver, selector, type', rfl, -, -, hlambda⟩ := projection?_eq_some hprojection
    have hinner : inner.Everywhere Q := he.child (by simp [children])
    have hbody : body.Everywhere Q := Everywhere.lambda? (he.child (by simp [children])) hlambda
    simpa using ⟨hinner, hQ.quote (hQ.lambda (everywhere_access hQ hbody name type) params)⟩
  · simpa using ⟨he, hQ.quote (hQ.lambda (everywhere_access hQ (hQ.param _) name type) _)⟩

theorem everywhere_pickedFrom? (hQ : HostPersistent Q) {args : List Expr}
    (hargs : ∀ a ∈ args, a.Everywhere Q) (h : pickedFrom? args = .ok (some r)) :
    r.Everywhere Q := by
  unfold pickedFrom? at h
  split at h
  · cases h
    exact hargs _ List.mem_cons_self
  · obtain ⟨filtered, hfiltered, h⟩ := map_eq_ok.mp h
    cases h
    exact hQ.callOperator (by decide) hargs hfiltered
  · cases h

theorem marker_find?_of_elementPicking :
    ∀ name ∈ Operator.elementPicking, (Marker.all.find? fun k => k.name == name) = none := by
  decide

theorem everywhere_rule (hQ : HostPersistent Q) (he : e.Everywhere Q)
    (h : rule e = .ok (some r)) : r.Everywhere Q := by
  obtain ⟨m, receiver, args, callType, name, type, source, projection, projected, rfl, hpicks,
    hpicked, hprojection, hprojected, hcall⟩ := rule_eq_some h
  have hpicking : (call m receiver args callType).Everywhere Q := he.child (by simp [children])
  have hsource := everywhere_pickedFrom? hQ
    (fun a ha => hpicking.child (List.mem_append_right _ ha)) hpicked
  have hproj : projected.Everywhere Q :=
    hQ.callOperator (by decide) (everywhere_projectionArgs? hQ hsource hprojection) hprojected
  exact hQ.callOperator (marker_of?_eq_none (marker_find?_of_elementPicking _ hpicks))
    (by simpa using hproj) hcall

end MemberPushdown

end Pass

end QueryLowering
