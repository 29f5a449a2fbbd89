import QueryLowering.Proofs.Failures
import QueryLowering.Proofs.JoinChart
import QueryLowering.Proofs.JoinScope

/-!
The expansion of navigations does not fail. A validated model has every target and every column that a
join or a collection asks for. The row that a navigation starts from is that of a root in view or a
joined row below one, so it has an anchor, and the anchor is a registered root. Joins that wait lie
below sources of operators around them, so none waits when a whole query is done.
-/

namespace QueryLowering

namespace StateStep

variable {σ α β : Type} {s : σ}

/-- The step, begun in the state, gives a result. -/
def Succeeds (step : StateStep σ α) (s : σ) : Prop := ∃ a s', step.Gives s a s'

theorem succeeds_pure (a : α) (s : σ) : (pure a : StateStep σ α).Succeeds s :=
  ⟨a, s, gives_pure.mpr ⟨rfl, rfl⟩⟩

theorem succeeds_modifyGet (f : σ → α × σ) (s : σ) : (modifyGet f : StateStep σ α).Succeeds s :=
  ⟨(f s).1, (f s).2, gives_modifyGet.mpr rfl⟩

theorem succeeds_ofExcept {x : Except Failure α} (h : ∃ a, x = .ok a) :
    (StateStep.ofExcept x : StateStep σ α).Succeeds s := by
  obtain ⟨a, ha⟩ := h
  exact ⟨a, s, gives_ofExcept.mpr ⟨ha, rfl⟩⟩

theorem Succeeds.bind {step : StateStep σ α} {f : α → StateStep σ β} (h : step.Succeeds s)
    (hf : ∀ a t, step.Gives s a t → (f a).Succeeds t) : (step >>= f).Succeeds s := by
  obtain ⟨a, t, ha⟩ := h
  obtain ⟨b, s', hb⟩ := hf a t ha
  exact ⟨b, s', gives_bind.mpr ⟨a, t, ha, hb⟩⟩

theorem Succeeds.map {step : StateStep σ α} (h : step.Succeeds s) (f : α → β) :
    (f <$> step).Succeeds s := by
  obtain ⟨a, s', ha⟩ := h
  exact ⟨f a, s', gives_map.mpr ⟨a, ha, rfl⟩⟩

/-- A traversal succeeds if its steps keep an invariant of the state and succeed wherever it holds. -/
theorem succeeds_mapM {f : α → StateStep σ β} {xs : List α} {I : σ → Prop}
    (hstep : ∀ x ∈ xs, ∀ t, I t → (f x).Succeeds t)
    (hkeep : ∀ x ∈ xs, ∀ t y t', I t → (f x).Gives t y t' → I t') (hs : I s) :
    (xs.mapM f).Succeeds s := by
  obtain ⟨ys, s', hys, -⟩ := exists_gives_mapM (R := fun _ _ => True) (fun x hx t ht => by
    obtain ⟨y, t', hy⟩ := hstep x hx t ht
    exact ⟨y, t', hy, trivial, hkeep x hx t y t' ht hy⟩) hs
  exact ⟨ys, s', hys⟩

end StateStep

namespace Pass.Navigation

open QueryLowering.Expr StateStep

variable {model : Model} {declaring : Entity} {n : QueryLowering.Navigation} {node row : Expr}
  {x x' : Expansion} {key : SourceKey} {V : SourceKey → Prop} {Γ : Scope}

/-- The row that a navigation starts from lies below a registered root. -/
theorem exists_anchor (hx : Tidy x)
    (hkey : Known x.state key ∨ ∃ a anchor, key = .join a ∧ Anchored x.state a anchor) :
    ∃ anchor element, x.state.anchor? key = some anchor ∧
      x.state.rootType? anchor = some element := by
  have hroot : ∀ anchor, Known x.state anchor → ∃ element, x.state.rootType? anchor = some element := by
    rintro anchor ⟨i, hi, rfl⟩
    exact ⟨x.state.roots[i], List.getElem?_eq_getElem hi⟩
  obtain hkey | ⟨a, anchor, rfl, e, he, rfl, -⟩ := hkey
  · obtain ⟨element, helement⟩ := hroot key hkey
    obtain ⟨i, -, rfl⟩ := hkey
    exact ⟨.root i, element, rfl, helement⟩
  · obtain ⟨element, helement⟩ := hroot _ (hx.anchors e he)
    refine ⟨e.2.anchor, element, ?_, helement⟩
    change (x.state.joinWithAlias? e.2.row).map Join.anchor = _
    rw [joinWithAlias?_of_mem hx.distinct he, Option.map_some]

section Members

variable (hvalid : ∀ e ∈ model.entities, model.ValidEntity e) (hdeclaring : declaring ∈ model.entities)
  (hn : n ∈ declaring.navigations)
include hvalid hdeclaring hn

theorem succeeds_expandReference (hx : Tidy x)
    (hkey : Known x.state key ∨ ∃ a anchor, key = .join a ∧ Anchored x.state a anchor) :
    (expandReference model key declaring n node).Succeeds x := by
  obtain ⟨target, htarget, -, hsource, htargets⟩ := Model.columns_of_valid hvalid hdeclaring hn
  obtain ⟨anchor, element, hanchor, helement⟩ := exists_anchor hx hkey
  obtain ⟨outerKey, houter⟩ := exists_keyOf (startRow key ⟨"r", element⟩ declaring) node hsource
  obtain ⟨innerKey, hinner⟩ := exists_keyOf (.param ⟨"i", .entity target.name⟩) node htargets
  have hparts : ∃ parts, joinParts model x.state key declaring n node = .ok parts :=
    ⟨⟨target, anchor, .lambda [⟨"r", element⟩] outerKey,
      .lambda [⟨"i", .entity target.name⟩] innerKey⟩, joinParts_eq_ok_iff.mpr
        ⟨element, outerKey, innerKey, htarget, hanchor, helement, houter, hinner, rfl, rfl⟩⟩
  unfold expandReference
  apply Succeeds.bind ⟨x, x, gives_get.mpr ⟨rfl, rfl⟩⟩
  intro y t hy
  obtain ⟨rfl, rfl⟩ := gives_get.mp hy
  split
  · exact succeeds_pure _ _
  · apply (succeeds_ofExcept hparts).bind
    intro parts u _
    apply (succeeds_modifyGet _ _).bind
    exact fun a v _ => succeeds_pure _ _

theorem exists_expandCollection (owner : Expr) :
    ∃ r, expandCollection model owner declaring n node = .ok r := by
  obtain ⟨entity, hentity, hnonempty, hsource, htargets⟩ :=
    Model.columns_of_valid hvalid hdeclaring hn
  have htarget : target model n node = .ok entity := target_eq_ok_iff.mpr hentity
  -- Each test compares two columns that exist.
  have hall : ∃ tests, ((targetColumns n).zip (sourceColumns n)).mapM (fun c => (do
      let left ← property (.param ⟨"e", .entity entity.name⟩) entity node c.1.2
      let right ← property owner declaring node c.2.2
      return Expr.binary .eq left right : Except Failure Expr)) = .ok tests := by
    apply exists_mapM_eq_ok
    intro c hc
    obtain ⟨hleft, hright⟩ := List.of_mem_zip hc
    obtain ⟨left, hleft⟩ :=
      exists_property (.param ⟨"e", .entity entity.name⟩) node (htargets _ hleft)
    obtain ⟨right, hright⟩ := exists_property owner node (hsource _ hright)
    exact ⟨.binary .eq left right, bind_eq_ok.mpr ⟨left, hleft, bind_eq_ok.mpr ⟨right, hright, rfl⟩⟩⟩
  obtain ⟨tests, htests⟩ := hall
  -- There is a test, as a foreign key has a column.
  have hlength : tests.length = n.foreignKey.length := by
    rw [← (mapM_eq_ok.mp htests).length_eq]
    simp [targetColumns, sourceColumns]
  obtain ⟨test, rest, rfl⟩ : ∃ test rest, tests = test :: rest := by
    apply List.exists_cons_of_ne_nil
    rintro rfl
    exact hnonempty (List.length_eq_zero_iff.mp hlength.symm)
  obtain ⟨r, hr⟩ := callOperator_where_entitySet entity.name ⟨"e", .entity entity.name⟩
    (rest.foldl (Expr.binary .and) test)
  refine ⟨r, ?_⟩
  unfold expandCollection
  exact bind_eq_ok.mpr ⟨entity, htarget, bind_eq_ok.mpr ⟨_, htests, hr⟩⟩

end Members

theorem succeeds_expandMember (hvalid : ∀ e ∈ model.entities, model.ValidEntity e)
    (hΓ : ScopeKeys V Γ) (hV : ∀ key, V key → Known x.state key) (hx : Tidy x)
    (hrow : row.RefersOnly (InView V x.state)) (name : String) (type : DataType) :
    (expandMember model Γ row name type).Succeeds x := by
  unfold expandMember
  dsimp only
  split
  · exact succeeds_pure _ _
  · rename_i declaring hdeclaring
    obtain ⟨entityName, -, hentity⟩ := Option.bind_eq_some_iff.mp hdeclaring
    have hmem : declaring ∈ model.entities := List.mem_of_find?_eq_some hentity
    split
    · exact succeeds_pure _ _
    · rename_i n hn
      have hnmem : n ∈ declaring.navigations := List.mem_of_find?_eq_some hn
      split
      · rename_i key _ hkey
        apply succeeds_expandReference hvalid hmem hnmem hx
        obtain ⟨-, hkey | ⟨a, entity, rfl, rfl⟩⟩ := rowKey?_eq_some hΓ hkey
        · exact .inl (hV key hkey)
        · obtain ⟨anchor, -, hanchored⟩ := hrow.sourceRef
          exact .inr ⟨a, anchor, rfl, hanchored⟩
      · exact succeeds_pure _ _
      · exact succeeds_ofExcept (exists_expandCollection hvalid hmem hnmem _)

/-- The expansion of the tree succeeds, from whatever state and in whatever scope. -/
def Expandable (model : Model) (e : Expr) : Prop :=
  ∀ V Γ bound x, ScopeKeys V Γ → (∀ i, ∀ key ∈ bound i, V key) →
    (∀ key, V key → Known x.state key) → Tidy x → (expand model Γ bound e).Succeeds x

theorem succeeds_asSource (p : Expr × Option SourceKey) (x : Expansion) :
    (asSource p).Succeeds x := by
  obtain ⟨e, key?⟩ := p
  cases key? with
  | none => exact Succeeds.bind (succeeds_modifyGet _ _) fun _ _ _ => succeeds_pure _ _
  | some key => exact succeeds_pure _ _

theorem succeeds_resultKey (name : String) (first : Option SourceKey) (e : Expr) (x : Expansion) :
    (resultKey name first e).Succeeds x := by
  unfold resultKey
  split
  · exact succeeds_pure _ _
  · split
    · exact Succeeds.map (succeeds_modifyGet _ _) _
    · exact succeeds_pure _ _

theorem succeeds_attachSource (a : Expr) (source : Option (Expr × SourceKey)) (x : Expansion) :
    (attachSource a source).Succeeds x := by
  cases source with
  | none => exact succeeds_pure _ _
  | some p => exact succeeds_modifyGet _ _

/-- A call without receiver is rebuilt from as many arguments as it has. -/
theorem succeeds_rebuild {m : Method} {args args' : List Expr} {type : DataType}
    (hlength : args'.length = args.length) (first : Option SourceKey) (x : Expansion) :
    (rebuild (.call m none args type) m.name args' first).Succeeds x := by
  have hfinish : (rebuild.finish (.call m none args type) m.name args' first).Succeeds x := by
    have hchildren : args'.length = (Expr.call m none args type).children.length := hlength
    unfold rebuild.finish
    apply (succeeds_ofExcept ⟨_, withChildren_eq_ok.mpr ⟨hchildren, rfl⟩⟩).bind
    intro e t _
    exact (succeeds_resultKey _ _ _ _).bind fun key u _ => succeeds_pure _ _
  unfold rebuild
  split
  · split
    · exact succeeds_pure _ _
    · exact hfinish
  · exact hfinish

section Operator

variable {e : Expr} {source : Option (Expr × SourceKey)}

theorem succeeds_expandSource (hexpandable : Expandable model e) (hΓ : ScopeKeys V Γ)
    (hV : ∀ key, V key → Known x.state key) (hx : Tidy x) :
    (expandSource model Γ e).Succeeds x := by
  unfold expandSource
  split
  · apply (hexpandable V Γ _ x hΓ Invariant.unbound hV hx).bind
    intro p t _
    exact (succeeds_asSource p t).bind fun q u _ => succeeds_pure _ _
  · exact succeeds_pure _ _

theorem succeeds_expandArg {operator : String} {keys : List SourceKey} (i : Nat)
    (hexpandable : Expandable model e) (hΓ : ScopeKeys V Γ)
    (hV : ∀ key, V key → Known x.state key) (hkeys : ∀ key ∈ keys, Known x.state key)
    (hx : Tidy x) : (expandArg model Γ operator keys i e source).Succeeds x := by
  cases source with
  | none =>
    apply Succeeds.bind _ fun p t _ => succeeds_pure _ _
    apply hexpandable (fun key => V key ∨ key ∈ keys) Γ _ x
    · exact fun b hb key hkey => .inl (hΓ b hb key hkey)
    · exact Invariant.scopeKeys_argSources fun key hkey => .inr hkey
    · exact fun key hkey => hkey.elim (hV key) (hkeys key)
    · exact hx
  | some p => exact succeeds_pure _ _

/-- An operator call without receiver succeeds if its arguments do. -/
theorem succeeds_expand_operator {m : Method} {args : List Expr} {type : DataType}
    {bound : Nat → Option SourceKey} (hop : (Operator.findFor? m args).isSome = true)
    (hplaced : ∀ a ∈ args, Placed model a) (hexpandable : ∀ a ∈ args, Expandable model a)
    (hΓ : ScopeKeys V Γ) (hV : ∀ key, V key → Known x.state key) (hx : Tidy x) :
    (expand model Γ bound (.call m none args type)).Succeeds x := by
  rw [expand_operator hop]
  -- The sources: every one leaves a tidy state in which the roots in view are still known.
  have hsources : (args.mapM (expandSource model Γ)).Succeeds x := by
    apply succeeds_mapM (I := fun t => Tidy t ∧ ∀ key, V key → Known t.state key) _ _ ⟨hx, hV⟩
    · exact fun a ha t ht => succeeds_expandSource (hexpandable a ha) hΓ ht.2 ht.1
    · intro a ha t source u ht hsource
      obtain ⟨hframe, -⟩ := sourceArg_expandSource (hplaced a ha) hΓ ht.2 ht.1 hsource
      exact ⟨hframe.tidy, fun key hkey => (ht.2 key hkey).mono hframe.grows⟩
  apply hsources.bind
  intro sources t hsources
  obtain ⟨hframe, hargs, -⟩ := sourceArgs_mapM hplaced hΓ hV hx hsources
  have hsource : ∀ source ∈ sources, ∃ a, SourceArg V x.state t.state a source :=
    forall_mem_of_forall₂ hargs fun a _ source hs => ⟨a, hs⟩
  have hkeys : ∀ key ∈ sourceKeys sources, Known t.state key := by
    intro key hkey
    obtain ⟨e, he⟩ := mem_sourceKeys.mp hkey
    obtain ⟨a, ha⟩ := hsource _ he
    exact (ha.sourced _ rfl).known
  -- The other arguments: the roots of the sources are in view of the lambdas among them.
  have hothers : ((args.zip sources).zipIdx.mapM fun a =>
      expandArg model Γ m.name (sourceKeys sources) a.2 a.1.1 a.1.2).Succeeds t := by
    apply succeeds_mapM (I := fun u => Tidy u ∧ Grows t.state u.state) _ _ ⟨hframe.tidy, .refl _⟩
    · intro a ha u hu
      obtain ⟨harg, -⟩ := List.of_mem_zip (List.fst_mem_of_mem_zipIdx ha)
      exact succeeds_expandArg a.2 (hexpandable _ harg) hΓ
        (fun key hkey => ((hV key hkey).mono hframe.grows).mono hu.2)
        (fun key hkey => (hkeys key hkey).mono hu.2) hu.1
    · intro a ha u r v hu hr
      obtain ⟨harg, hmem⟩ := List.of_mem_zip (List.fst_mem_of_mem_zipIdx ha)
      obtain ⟨arg, hsource⟩ := hsource _ hmem
      obtain ⟨hframe', -⟩ := argView_expandArg (hplaced _ harg) hΓ
        (fun key hkey => ((hV key hkey).mono hframe.grows).mono hu.2)
        (fun key hkey => (hkeys key hkey).mono hu.2) hu.1
        (fun p hp => (hsource.refers p hp).mono fun l hl => hl.mono hu.2) hr
      exact ⟨hframe'.tidy, hu.2.trans hframe'.grows⟩
  apply hothers.bind
  intro args' u hothers
  have hattach : ((args'.zip sources).mapM fun a => attachSource a.1 a.2).Succeeds u :=
    succeeds_mapM (I := fun _ => True) (fun a _ v _ => succeeds_attachSource a.1 a.2 v)
      (fun _ _ _ _ _ _ _ => trivial) trivial
  apply hattach.bind
  intro args'' v hattach
  -- No traversal changes how many arguments there are.
  have hlength : args''.length = args.length := by
    have hargs' := (hothers.forall₂ (fun _ _ => True) fun _ _ _ _ _ _ => trivial).length_eq
    have hargs'' := (hattach.forall₂ (fun _ _ => True) fun _ _ _ _ _ _ => trivial).length_eq
    have hsources' := hargs.length_eq
    simp only [List.length_zipIdx, List.length_zip] at hargs' hargs''
    omega
  exact succeeds_rebuild hlength _ v

end Operator

/-- A node that is no reference to a joined row and no method of a receiver. -/
structure Plain (n : Expr) : Prop where
  noReference : ∀ a entity, n ≠ .sourceRef a entity
  noReceiver : ∀ m receiver args type, n ≠ .call m (some receiver) args type

section Expand

variable {e : Expr}

theorem placed_of_plain (he : e.Everywhere Plain) : Placed model e := by
  apply placed_of_noReference
  exact he.mono fun n hn a entity heq => hn.noReference a entity heq

theorem succeeds_traverse (hplaced : ∀ c ∈ e.children, Placed model c)
    (hexpandable : ∀ c ∈ e.children, Expandable model c) (hΓ : ScopeKeys V Γ)
    (hV : ∀ key, V key → Known x.state key) (hx : Tidy x) :
    (e.traverse fun c _ => Prod.fst <$> expand model Γ (fun _ => none) c).Succeeds x := by
  rw [traverse_eq]
  apply Succeeds.map
  apply succeeds_mapM (I := fun t => Tidy t ∧ ∀ key, V key → Known t.state key) _ _ ⟨hx, hV⟩
  · exact fun c hc t ht => (hexpandable c hc V Γ _ t hΓ Invariant.unbound ht.2 ht.1).map _
  · intro c hc t r u ht hr
    obtain ⟨p, hp, rfl⟩ := gives_map.mp hr
    have hframe := (hplaced c hc V Γ _ t p u hΓ Invariant.unbound ht.2 ht.1 hp).frame
    exact ⟨hframe.tidy, fun key hkey => (ht.2 key hkey).mono hframe.grows⟩

/-- Over a valid model, a tree without references and receivers is expanded. -/
theorem expandable_of_plain (hvalid : ∀ e ∈ model.entities, model.ValidEntity e)
    (he : e.Everywhere Plain) : Expandable model e := by
  induction e using childInduction with
  | step e ih =>
    have hplaced : ∀ c ∈ e.children, Placed model c := fun c hc => placed_of_plain (he.child hc)
    have hexpandable : ∀ c ∈ e.children, Expandable model c := fun c hc => ih c hc (he.child hc)
    intro V Γ bound x hΓ hbound hV hx
    cases e with
    | call m receiver args type =>
      cases receiver with
      | some receiver => exact absurd rfl (he.root.noReceiver m receiver args type)
      | none =>
        cases hop : (Operator.findFor? m args).isSome with
        | true => exact succeeds_expand_operator hop hplaced hexpandable hΓ hV hx
        | false =>
          rw [expand_call hop]
          exact (succeeds_traverse hplaced hexpandable hΓ hV hx).bind fun _ _ _ => succeeds_pure _ _
    | quote inner =>
      rw [expand]
      apply (hexpandable inner List.mem_cons_self V Γ bound x hΓ hbound hV hx).bind
      exact fun _ _ _ => succeeds_pure _ _
    | lambda params body =>
      rw [expand]
      apply (hexpandable body List.mem_cons_self V _ _ x (Invariant.scopeKeys_bind hΓ hbound)
        Invariant.unbound hV hx).bind
      exact fun _ _ _ => succeeds_pure _ _
    | member row name type =>
      rw [expand]
      apply (hexpandable row List.mem_cons_self V Γ _ x hΓ Invariant.unbound hV hx).bind
      intro p t hp
      -- What the row has become refers to joins in view only, so the member can be looked up.
      have hrow := hplaced row List.mem_cons_self V Γ _ x p t hΓ Invariant.unbound hV hx hp
      apply (succeeds_expandMember hvalid hΓ
        (fun key hkey => (hV key hkey).mono hrow.frame.grows) hrow.frame.tidy hrow.refers _ _).bind
      exact fun _ _ _ => succeeds_pure _ _
    | _ =>
      rw [expand]
      · exact (succeeds_traverse hplaced hexpandable hΓ hV hx).bind fun _ _ _ => succeeds_pure _ _
      all_goals
        intros
        contradiction

end Expand

/-- Over a model that has been validated, navigations are expanded in any query without references to
joined rows and without methods of receivers, if no join has been made before. -/
theorem expansion_succeeds {entities : List Entity} {ctx : Context} {e : Expr} {s : State}
    (hmodel : Model.ofEntities entities = .ok ctx.model)
    (hreference : ∀ a entity, .sourceRef a entity ∉ e.nodes)
    (hreceiver : ∀ m receiver args type, .call m (some receiver) args type ∉ e.nodes)
    (hjoins : s.joins = []) : ∃ r s', (navigation.run ctx e).Gives s r s' := by
  have hplain : e.Everywhere Plain := by
    intro n hn
    refine ⟨?_, ?_⟩
    · rintro a entity rfl
      exact hreference a entity hn
    · rintro m receiver args type rfl
      exact hreceiver m receiver args type hn
  have hvalid := Model.validEntity_of_ofEntities hmodel
  -- Nothing is in view of a whole query.
  obtain ⟨⟨r, key⟩, x, hx⟩ := expandable_of_plain hvalid hplain (fun _ => False) [] (fun _ => none)
    { state := s } (List.forall_mem_nil _) Invariant.unbound nofun (.of_no_joins hjoins)
  have hplacement := placed_of_plain hplain (fun _ => False) [] _ _ _ _
    (List.forall_mem_nil _) Invariant.unbound nofun (.of_no_joins hjoins) hx
  have hpending : x.pending = [] := by
    obtain ⟨new, hnew, hanchors⟩ := hplacement.frame.pending
    rw [hnew, List.nil_append]
    exact List.eq_nil_iff_forall_not_mem.mpr fun p hp => hanchors p hp
  exact ⟨r, x.state, gives_run.mpr ⟨key, x, hx, hpending, rfl⟩⟩

/-- The nodes that are plain, by their constructors. -/
def isPlainNode : Expr → Bool
  | .sourceRef .. | .call _ (some _) .. => false
  | _ => true

/-- Customers with an order of a customer of the same city: a collection, and joins that are required
and joins that are not. -/
theorem expansion_of_neighbours_succeeds :
    Model.ofEntities [Sample.shipment, Sample.orderLine, Sample.order, Sample.customer,
        Sample.address] = .ok Sample.model ∧
      (∀ a entity, .sourceRef a entity ∉ neighbours.nodes) ∧
      (∀ m receiver args type, .call m (some receiver) args type ∉ neighbours.nodes) ∧
      State.fresh.joins = [] ∧
      ∃ r s', (navigation.run ⟨Sample.model, Sample.catalog⟩ neighbours).Gives .fresh r s' := by
  have hmodel : Model.ofEntities [Sample.shipment, Sample.orderLine, Sample.order, Sample.customer,
      Sample.address] = .ok Sample.model := by cbv
  have hnodes : neighbours.nodes.all isPlainNode = true := by cbv
  have hreference : ∀ a entity, .sourceRef a entity ∉ neighbours.nodes := by
    intro a entity hmem
    exact absurd (List.all_eq_true.mp hnodes _ hmem) Bool.false_ne_true
  have hreceiver : ∀ m receiver args type,
      .call m (some receiver) args type ∉ neighbours.nodes := by
    intro m receiver args type hmem
    exact absurd (List.all_eq_true.mp hnodes _ hmem) Bool.false_ne_true
  exact ⟨hmodel, hreference, hreceiver, rfl, expansion_succeeds hmodel hreference hreceiver rfl⟩

end Pass.Navigation

end QueryLowering
