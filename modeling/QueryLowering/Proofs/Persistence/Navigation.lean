import QueryLowering.Proofs.Expansion
import QueryLowering.Proofs.Persistence.Rules

/-!
Persistent properties outlast the expansion of navigations. The joins that wait to be attached are
part of what the expansion will give, so they have to have the property as well.
-/

namespace QueryLowering.Pass.Navigation

open QueryLowering.Expr StateStep

variable {Q : Expr → Prop} {e r : Expr}

/-- The parts of a join that has not been attached yet have the property. -/
def PendingJoin.Everywhere (Q : Expr → Prop) (j : PendingJoin) : Prop :=
  j.inner.Everywhere Q ∧ j.outerKey.Everywhere Q ∧ j.innerKey.Everywhere Q

/-- The parts of all joins that have not been attached yet have the property. -/
def PendingEverywhere (Q : Expr → Prop) (x : Expansion) : Prop :=
  ∀ j ∈ x.pending, j.Everywhere Q

theorem everywhere_keyOf (hQ : HostPersistent Q) {row node : Expr} {entity : Entity}
    {columns : List (String × String)} (hrow : row.Everywhere Q)
    (h : keyOf row entity node columns = .ok r) : r.Everywhere Q := by
  obtain ⟨members, -, hmembers, hkey⟩ := keyOf_eq_ok h
  have hall : ∀ m ∈ members, m.2.Everywhere Q := by
    intro m hm
    obtain ⟨p, -, heq⟩ := hmembers m hm
    rw [heq]
    exact hQ.member hrow p.name p.type
  rcases hkey with rfl | ⟨name, rfl⟩
  · refine hQ.everywhere rfl rfl fun c hc => ?_
    obtain ⟨m, hm, rfl⟩ := List.mem_map.mp hc
    exact hall m hm
  · exact hall (name, r) List.mem_cons_self

/-- The keys of a join are read off the row that the navigation starts from and off a parameter. -/
theorem everywhere_joinParts (hQ : HostPersistent Q) {model : Model} {s : State} {key : SourceKey}
    {declaring : Entity} {n : QueryLowering.Navigation} {node : Expr} {parts : JoinParts}
    (hstart : ∀ a, key = .join a → Q (.sourceRef a declaring.name))
    (h : joinParts model s key declaring n node = .ok parts) :
    parts.outerKey.Everywhere Q ∧ parts.innerKey.Everywhere Q := by
  obtain ⟨element, outerKey, innerKey, -, -, -, houter, hinner, hparts, hparts'⟩ :=
    joinParts_eq_ok_iff.mp h
  have hrow : (startRow key ⟨"r", element⟩ declaring).Everywhere Q := by
    cases key with
    | root i => exact hQ.param ⟨"r", element⟩
    | join a => exact everywhere_of_leaf rfl (hstart a rfl)
  rw [hparts, hparts']
  exact ⟨hQ.lambda (everywhere_keyOf hQ hrow houter) _,
    hQ.lambda (everywhere_keyOf hQ (hQ.param _) hinner) _⟩

theorem everywhere_expandCollection (hQ : HostPersistent Q) {model : Model} {owner node : Expr}
    {declaring : Entity} {n : QueryLowering.Navigation} (howner : owner.Everywhere Q)
    (h : expandCollection model owner declaring n node = .ok r) : r.Everywhere Q := by
  obtain ⟨tests, test, htest, htests, hcall⟩ := expandCollection_eq_ok h
  have hall : ∀ t ∈ tests, t.Everywhere Q := by
    intro t ht
    obtain ⟨a, b, rfl⟩ := htests t ht
    exact hQ.binary (hQ.member (hQ.param _) a.name a.type) (hQ.member howner b.name b.type) .eq
  have hset : (Expr.entitySet n.target).Everywhere Q :=
    hQ.everywhere rfl rfl (by simp [Expr.entitySet, children])
  have hlambda := hQ.lambda (hQ.foldBinary? hall htest) [⟨"e", .entity n.target⟩]
  exact hQ.callOperator (by decide) (by simpa using ⟨hset, hQ.quote hlambda⟩) hcall

theorem everywhere_attachAll {joins : List PendingJoin} (he : e.Everywhere Q)
    (hlabel : ∀ j ∈ joins, ∀ outer, Q (.navigationJoin j.label outer j.inner j.outerKey j.innerKey))
    (hjoins : ∀ j ∈ joins, j.Everywhere Q) : (attachAll e joins).Everywhere Q := by
  unfold attachAll
  induction joins generalizing e with
  | nil => exact he
  | cons j js ih =>
    obtain ⟨hinner, houter, hkey⟩ := hjoins j List.mem_cons_self
    apply ih
    · refine everywhere_iff.mpr ⟨hlabel j List.mem_cons_self e, ?_⟩
      simpa [children] using ⟨he, hinner, houter, hkey⟩
    · exact fun k hk => hlabel k (List.mem_cons_of_mem _ hk)
    · exact fun k hk => hjoins k (List.mem_cons_of_mem _ hk)

theorem everywhere_attach {key : SourceKey} {x x' : Expansion} (he : e.Everywhere Q)
    (hlabel : ∀ j ∈ x.pending, ∀ outer,
      Q (.navigationJoin j.label outer j.inner j.outerKey j.innerKey))
    (hx : PendingEverywhere Q x) (h : (attach key e).Gives x r x') :
    r.Everywhere Q ∧ x'.state = x.state ∧ ∀ j ∈ x'.pending, j ∈ x.pending := by
  unfold attach at h
  have h := gives_modifyGet.mp h
  cases h
  exact ⟨everywhere_attachAll he (fun j hj => hlabel j (List.mem_filter.mp hj).1)
    (fun j hj => hx j (List.mem_filter.mp hj).1), rfl, fun j hj => (List.mem_filter.mp hj).1⟩

/-- A new join waits behind the others. -/
theorem pending_addJoin {key : SourceKey} {n : QueryLowering.Navigation} {x : Expansion}
    {parts : JoinParts} {j : PendingJoin} (h : j ∈ (addJoin key n parts x).2.pending) :
    j ∈ x.pending ∨ j = ⟨parts.anchor,
      ⟨⟨x.state.nextAlias⟩, n.name, joinKind x.state key n⟩,
      .baseTable ⟨x.state.nextAlias⟩ parts.target.schema parts.target.table parts.target.name,
      parts.outerKey, parts.innerKey⟩ := by
  rcases List.mem_append.mp h with h | h
  · exact .inl h
  · exact .inr (List.mem_singleton.mp h)

theorem everywhere_expandMember (hQ : Persistent Q) {model : Model} {Γ : Scope} {row : Expr}
    {name : String} {type : DataType} {x x' : Expansion} (hrow : row.Everywhere Q)
    (hx : PendingEverywhere Q x) (h : (expandMember model Γ row name type).Gives x r x') :
    r.Everywhere Q ∧ PendingEverywhere Q x' := by
  rcases expandMember_cases h with ⟨rfl, rfl⟩ | ⟨key, declaring, n, -, h⟩ |
    ⟨_, _, hcollection, rfl⟩
  · exact ⟨hQ.host.member hrow name type, hx⟩
  · rcases expandReference_cases h with ⟨j, -, rfl, rfl⟩ | ⟨parts, -, hparts, rfl, rfl⟩
    · exact ⟨hQ.everywhere rfl (by simp [children]), hx⟩
    · refine ⟨hQ.everywhere rfl (by simp [children]), fun j hj => ?_⟩
      rcases pending_addJoin hj with hj | rfl
      · exact hx j hj
      · exact ⟨hQ.everywhere rfl (by simp [children]),
          everywhere_joinParts hQ.host (fun _ _ => hQ.ordinary _ rfl) hparts⟩
  · exact ⟨everywhere_expandCollection hQ.host hrow hcollection, hx⟩

/-- A persistent property of the trees built so far, those that wait included, is kept. -/
theorem invariant_everywhere (hQ : Persistent Q) (model : Model) :
    Invariant model Q (PendingEverywhere Q) (fun _ e => e.Everywhere Q) (fun _ => True) where
  mono _ he := he
  node he hlen hcs := everywhere_setChildren hQ.setChildren he hlen hcs
  root _ := trivial
  addRoot _ hx := hx
  member _ hrow hx h := everywhere_expandMember hQ hrow hx h
  attach he hx h := by
    obtain ⟨hr, -, hpending⟩ := everywhere_attach he (fun j _ _ => hQ.ordinary _ rfl) hx h
    exact ⟨hr, fun j hj => hx j (hpending j hj)⟩

theorem everywhere_expand (hQ : Persistent Q) {model : Model} {Γ : Scope}
    {bound : Nat → Option SourceKey} {x x' : Expansion} {result : Expr × Option SourceKey}
    (he : e.Everywhere Q) (hx : PendingEverywhere Q x)
    (h : (expand model Γ bound e).Gives x result x') :
    result.1.Everywhere Q ∧ PendingEverywhere Q x' := by
  obtain ⟨hr, -, hx', -⟩ := (invariant_everywhere hQ model).expand he Γ bound x result x'
    (fun _ _ _ _ => trivial) (fun _ _ _ => trivial) hx h
  exact ⟨hr, hx'⟩

end QueryLowering.Pass.Navigation
