import QueryLowering.Proofs.Placeholders
import QueryLowering.Proofs.Unfolding

/-!
The expansion of navigations does not tell a placeholder from what may be filled in for it. Rows are
told apart by the parameters that lambdas bind, and joins are made from names and types alone; so on
a clean tree and on the same tree filled in, the expansion takes the same steps and leaves the same
joins to be attached, which have no placeholders in them.
-/

namespace QueryLowering.Pass.Navigation

open QueryLowering.Expr Literals StateStep

variable {f : Param → Option Expr} {e : Expr}

theorem source?_eq_none {Γ : Scope} (hΓ : BindsUnreserved Γ) {p : Param}
    (hp : Reserved p.name) : Γ.source? p = none := by
  unfold Scope.source?
  rw [hΓ.find?_eq_none hp]

/-- The parts of a join are clean and have no placeholders in them. -/
def JoinFixed (f : Param → Option Expr) (j : PendingJoin) : Prop :=
  Filled f j.inner j.inner ∧ Filled f j.outerKey j.outerKey ∧ Filled f j.innerKey j.innerKey

/-- All joins that wait to be attached are fixed. -/
def PendingFixed (f : Param → Option Expr) (x : Expansion) : Prop :=
  ∀ j ∈ x.pending, JoinFixed f j

/-- Results of the expansion: the tree is filled in, the key is the same. -/
def FilledRows (f : Param → Option Expr) (a b : Expr × Option SourceKey) : Prop :=
  Filled f a.1 b.1 ∧ b.2 = a.2

variable (hf : StandIns f)

section References

include hf

theorem rowKey?_fill {Γ : Scope} (hΓ : BindsUnreserved Γ) (e : Expr) :
    rowKey? Γ (e.fill f) = rowKey? Γ e := by
  cases e with
  | param p =>
    rcases hf.fill_param_cases p with h | ⟨hp, ⟨v, -, h⟩ | ⟨name, hname, h⟩⟩
    · rw [h]
    · rw [h, rowKey?, rowKey?, source?_eq_none hΓ hp]
      all_goals simp
    · have hnone : Γ.source? ⟨name, p.type⟩ = none := source?_eq_none hΓ hname
      rw [h, rowKey?, rowKey?, source?_eq_none hΓ hp, hnone]
  | _ => simp [rowKey?]

omit hf in
theorem agree_property {row : Expr} (hrow : row.Clean) (entity : Entity) (node node' : Expr)
    (name : String) :
    Agree (Filled f) (property row entity node name)
      (property (row.fill f) entity node' name) := by
  unfold property
  split
  · exact .ok ⟨clean_member.mpr hrow, (fill_member _ _ _).symm⟩
  · exact .error rfl

omit hf in
/-- A property of a row without placeholders has none, whatever node a failure would name. -/
theorem agree_property_fixed {row : Expr} (hrow : Filled f row row) (entity : Entity)
    (node node' : Expr) (name : String) :
    Agree (fun k k' => Filled f k k ∧ k' = k) (property row entity node name)
      (property row entity node' name) := by
  unfold property
  split
  · refine .ok ⟨⟨clean_member.mpr hrow.1, ?_⟩, rfl⟩
    rw [fill_member, ← hrow.2]
  · exact .error rfl

omit hf in
/-- The key of a row without placeholders has none either. -/
theorem agree_keyOf {row : Expr} (hrow : Filled f row row) (entity : Entity) (node node' : Expr)
    (columns : List (String × String)) :
    Agree (fun k k' => Filled f k k ∧ k' = k) (keyOf row entity node columns)
      (keyOf row entity node' columns) := by
  have hproperty := agree_property_fixed hrow entity node node'
  have hobject : Agree (fun k k' => Filled f k k ∧ k' = k)
      (do return Expr.object (← columns.mapM fun c => do
        return (c.1, ← property row entity node c.2)))
      (do return Expr.object (← columns.mapM fun c => do
        return (c.1, ← property row entity node' c.2))) := by
    refine Agree.bind (R := fun ms ms' =>
      List.Forall₂ (fun m m' => Filled f m.2 m.2 ∧ m' = id m) ms ms' ∧ _)
      (Agree.mapM fun c _ => ?_) fun ms ms' hms => ?_
    · exact (hproperty c.2).bind fun k k' hk => .ok ⟨hk.1, by rw [hk.2]; rfl⟩
    · obtain ⟨hfilled, hsame⟩ := eq_map_of_forall₂ hms.1
      rw [List.map_id] at hsame
      have hclean : (Expr.object ms).Clean := clean_object.mpr fun m hm => (hfilled m hm).1
      have hfixed : ms.map (fun m => (m.1, m.2.fill f)) = ms := by
        conv => rhs; rw [← List.map_id ms]
        exact List.map_congr_left fun m hm => Prod.ext rfl (hfilled m hm).2.symm
      exact .ok ⟨⟨hclean, by rw [fill_object, hfixed]⟩, by rw [hsame]⟩
  unfold keyOf
  split
  · exact hproperty _
  · exact hobject

omit hf in
theorem agree_target (model : Model) (n : QueryLowering.Navigation) (node node' : Expr) :
    Agree Eq (target model n node) (target model n node') := by
  unfold target
  split
  · exact .ok rfl
  · exact .error rfl

theorem agree_joinParts {model : Model} (s : State) (key : SourceKey) (declaring : Entity)
    (n : QueryLowering.Navigation) (node node' : Expr) :
    Agree (fun parts parts' => parts' = parts ∧ Filled f parts.outerKey parts.outerKey ∧
      Filled f parts.innerKey parts.innerKey) (joinParts model s key declaring n node)
      (joinParts model s key declaring n node') := by
  have hr : ¬ Reserved "r" := not_reserved (by decide)
  have hi : ¬ Reserved "i" := not_reserved (by decide)
  have hanchor : Agree (fun a b => b = a ∧ a.2.name = "r") (anchorParam s key node)
      (anchorParam s key node') := by
    unfold anchorParam
    split
    · exact .error rfl
    · split
      · exact .error rfl
      · exact .ok ⟨rfl, rfl⟩
  unfold joinParts
  refine (agree_target model n node node').bind fun target _ heq => ?_
  subst heq
  refine hanchor.bind fun ⟨anchor, r⟩ _ hrow => ?_
  obtain ⟨rfl, hname⟩ := hrow
  replace hr : ¬ Reserved r.name := hname ▸ hr
  have hstart : Filled f (startRow key r declaring) (startRow key r declaring) := by
    cases key with
    | root i => exact ⟨clean_param r, (hf.fill_param_of_not_reserved hr).symm⟩
    | join a => exact ⟨clean_sourceRef a _, (fill_sourceRef a _).symm⟩
  have hinner : Filled f (.param ⟨"i", .entity target.name⟩) (.param ⟨"i", .entity target.name⟩) :=
    ⟨clean_param _, (hf.fill_param_of_not_reserved hi).symm⟩
  refine (agree_keyOf hstart declaring node node' _).bind fun outerKey _ houter => ?_
  obtain ⟨houter, rfl⟩ := houter
  refine (agree_keyOf hinner target node node' _).bind fun innerKey _ hkey => ?_
  obtain ⟨hkey, rfl⟩ := hkey
  refine .ok ⟨rfl, ⟨?_, ?_⟩, ?_, ?_⟩
  · simpa using ⟨hr, houter.1⟩
  · rw [fill_lambda, ← houter.2]
  · simpa using ⟨hi, hkey.1⟩
  · rw [fill_lambda, ← hkey.2]

theorem agree_expandReference {model : Model} (key : SourceKey) (declaring : Entity)
    (n : QueryLowering.Navigation) (node node' : Expr) :
    StateStep.Agree (PendingFixed f) (Filled f) (expandReference model key declaring n node)
      (expandReference model key declaring n node') := by
  have hreference : ∀ a entity, Filled f (.sourceRef a entity) (.sourceRef a entity) :=
    fun a entity => ⟨clean_sourceRef a entity, (fill_sourceRef a entity).symm⟩
  unfold expandReference
  refine agree_get.bind fun x _ hx => ?_
  obtain ⟨rfl, -⟩ := hx
  split
  · exact agree_pure (hreference _ _)
  · refine (agree_ofExcept (agree_joinParts hf x.state key declaring n node node')).bind
      fun parts _ hparts => ?_
    obtain ⟨rfl, houter, hinner⟩ := hparts
    refine (agree_modifyGet (R := Eq) fun y hy => ⟨rfl, rfl, ?_⟩).bind fun a _ heq => ?_
    · -- The new join waits behind the others.
      intro j hj
      rcases List.mem_append.mp hj with hj | hj
      · exact hy j hj
      · cases List.mem_singleton.mp hj
        exact ⟨⟨clean_baseTable _ _ _ _, (fill_baseTable _ _ _ _).symm⟩, houter, hinner⟩
    · subst heq
      exact agree_pure (hreference _ _)

theorem agree_expandCollection {model : Model} {owner : Expr} (howner : owner.Clean)
    (declaring : Entity) (n : QueryLowering.Navigation) (node node' : Expr) :
    Agree (Filled f) (expandCollection model owner declaring n node)
      (expandCollection model (owner.fill f) declaring n node') := by
  have he : ¬ Reserved "e" := not_reserved (by decide)
  unfold expandCollection
  refine (agree_target model n node node').bind fun target _ heq => ?_
  subst heq
  have hrow : (Expr.param ⟨"e", .entity target.name⟩).fill f = .param ⟨"e", .entity target.name⟩ :=
    hf.fill_param_of_not_reserved he
  refine Agree.bind (R := fun ts ts' => List.Forall₂ (Filled f) ts ts' ∧ _)
    (Agree.mapM fun c _ => ?_) fun tests tests' htests => ?_
  · have hleft := agree_property (f := f) (clean_param ⟨"e", .entity target.name⟩) target node node'
      c.1.2
    rw [hrow] at hleft
    refine hleft.bind fun left left' hleft => ?_
    refine (agree_property howner declaring node node' c.2.2).bind fun right right' hright => ?_
    obtain ⟨hleft, rfl⟩ := hleft
    obtain ⟨hright, rfl⟩ := hright
    exact .ok ⟨clean_binary.mpr ⟨hleft, hright⟩, (fill_binary _ _ _).symm⟩
  · obtain ⟨hclean, rfl⟩ := eq_map_of_forall₂ htests.1
    rw [fill_foldBinary?]
    cases htest : Expr.foldBinary? .and tests with
    | none => exact .error rfl
    | some test =>
      have htest := clean_foldBinary? hclean htest
      have hargs : ∀ a ∈ [Expr.entitySet target.name,
          .quote (.lambda [⟨"e", .entity target.name⟩] test)], a.Clean := by
        simpa using ⟨he, htest⟩
      have hcall : Agree (Filled f) (callOperator Family.deferred.owner "Where" _)
          (callOperator Family.deferred.owner "Where" _) := hf.agree_callOperator hargs
      simpa [entitySet] using hcall

theorem agree_expandMember {model : Model} {Γ : Scope} (hΓ : BindsUnreserved Γ) {row : Expr}
    (hrow : row.Clean) (name : String) (type : DataType) :
    StateStep.Agree (PendingFixed f) (Filled f) (expandMember model Γ row name type)
      (expandMember model Γ (row.fill f) name type) := by
  have hnode : Filled f (.member row name type) (.member (row.fill f) name type) :=
    ⟨clean_member.mpr hrow, (fill_member _ _ _).symm⟩
  rw [expandMember, expandMember, hf.type_fill, rowKey?_fill hf hΓ]
  cases row.type.entityName?.bind model.entity? with
  | none => exact agree_pure hnode
  | some declaring =>
    dsimp only
    cases declaring.navigation? name with
    | none => exact agree_pure hnode
    | some n =>
      dsimp only
      cases n.cardinality with
      | one =>
        cases rowKey? Γ row with
        | none => exact agree_pure hnode
        | some key => exact agree_expandReference hf key declaring n _ _
      | many => exact agree_ofExcept (agree_expandCollection hf hrow declaring n _ _)

end References

theorem filled_attachAll {joins : List PendingJoin} (he : e.Clean)
    (hjoins : ∀ j ∈ joins, JoinFixed f j) :
    Filled f (attachAll e joins) (attachAll (e.fill f) joins) := by
  unfold attachAll
  induction joins generalizing e with
  | nil => exact he.filled
  | cons j js ih =>
    obtain ⟨hinner, houter, hkey⟩ := hjoins j List.mem_cons_self
    have hnode : (navigationJoin j.label e j.inner j.outerKey j.innerKey).fill f =
        navigationJoin j.label (e.fill f) j.inner j.outerKey j.innerKey := by
      rw [fill_navigationJoin, ← hinner.2, ← houter.2, ← hkey.2]
    rw [List.foldl_cons, List.foldl_cons, ← hnode]
    exact ih (clean_navigationJoin.mpr ⟨he, hinner.1, houter.1, hkey.1⟩)
      fun k hk => hjoins k (List.mem_cons_of_mem _ hk)

theorem agree_attach (he : e.Clean) (key : SourceKey) :
    StateStep.Agree (PendingFixed f) (Filled f) (attach key e) (attach key (e.fill f)) := by
  refine agree_modifyGet fun x hx => ⟨?_, rfl, ?_⟩
  · exact filled_attachAll he fun j hj => hx j (List.mem_filter.mp hj).1
  · exact fun j hj => hx j (List.mem_filter.mp hj).1

theorem agree_updateState {α : Type} (g : State → α × State) :
    StateStep.Agree (PendingFixed f) Eq (updateState g) (updateState g) :=
  agree_modifyGet fun _ hx => ⟨rfl, rfl, hx⟩

section Operators

include hf

theorem agree_asSource {a b : Expr × Option SourceKey} (h : FilledRows f a b) :
    StateStep.Agree (PendingFixed f) (fun a b => Filled f a.1 b.1 ∧ b.2 = a.2) (asSource a)
      (asSource b) := by
  obtain ⟨e, key⟩ := a
  obtain ⟨e', key'⟩ := b
  obtain ⟨⟨he, hfill⟩, hkey⟩ := h
  dsimp only at he hfill hkey
  subst hfill hkey
  cases key' with
  | none =>
    rw [asSource, asSource, hf.type_fill]
    exact (agree_updateState _).bind fun k _ hk => agree_pure ⟨he.filled, hk.symm⟩
  | some k => exact agree_pure ⟨he.filled, rfl⟩

theorem agree_resultKey (name : String) (first : Option SourceKey) (e : Expr) :
    StateStep.Agree (PendingFixed f) Eq (resultKey name first e)
      (resultKey name first (e.fill f)) := by
  unfold resultKey
  rw [hf.type_fill]
  split
  · exact agree_pure rfl
  · split
    · exact (agree_updateState _).map fun k k' hk => congrArg some hk
    · exact agree_pure rfl

theorem agree_rebuild {args : List Expr} (he : e.Clean) (hargs : ∀ a ∈ args, a.Clean)
    (name : String) (first : Option SourceKey) :
    StateStep.Agree (PendingFixed f) (FilledRows f) (rebuild e name args first)
      (rebuild (e.fill f) name (args.map (fill f)) first) := by
  -- Both branches that keep the call end in the same way.
  have hfinish : StateStep.Agree (PendingFixed f) (FilledRows f)
      (rebuild.finish e name args first)
      (rebuild.finish (e.fill f) name (args.map (fill f)) first) := by
    unfold rebuild.finish
    refine (agree_ofExcept (hf.agree_withChildren he hargs)).bind fun node _ hnode => ?_
    obtain ⟨hnode, rfl⟩ := hnode
    exact (agree_resultKey hf name first node).bind fun k k' hk =>
      agree_pure ⟨hnode.filled, hk.symm⟩
  unfold rebuild
  cases args with
  | nil => exact hfinish
  | cons source rest =>
    simp only [List.map_cons, hf.type_fill]
    split
    · exact agree_pure ⟨(hargs source List.mem_cons_self).filled, rfl⟩
    · exact hfinish

/-- What an argument that is a source has been expanded to, filled in. -/
def fillSource (f : Param → Option Expr) (source : Option (Expr × SourceKey)) :
    Option (Expr × SourceKey) :=
  source.map fun s => (s.1.fill f, s.2)

theorem agree_expandSource {model : Model} {Γ : Scope}
    (hexpand : StateStep.Agree (PendingFixed f) (FilledRows f)
      (expand model Γ (fun _ => none) e) (expand model Γ (fun _ => none) (e.fill f))) :
    StateStep.Agree (PendingFixed f) (fun s s' => (∀ x ∈ s, x.1.Clean) ∧ s' = fillSource f s)
      (expandSource model Γ e) (expandSource model Γ (e.fill f)) := by
  unfold expandSource
  rw [hf.argShape_fill]
  split
  · refine hexpand.bind fun a b hab => (agree_asSource hf hab).bind fun s s' hs => ?_
    obtain ⟨⟨hclean, hfill⟩, hkey⟩ := hs
    refine agree_pure ⟨?_, congrArg some (Prod.ext hfill hkey)⟩
    rintro x ⟨⟩
    exact hclean
  · exact agree_pure ⟨by simp, rfl⟩

theorem agree_expandArg {model : Model} {Γ : Scope} {operator : String} {keys : List SourceKey}
    {i : Nat} {source : Option (Expr × SourceKey)}
    (hexpand : ∀ bound, StateStep.Agree (PendingFixed f) (FilledRows f) (expand model Γ bound e)
      (expand model Γ bound (e.fill f))) (hsource : ∀ x ∈ source, x.1.Clean) :
    StateStep.Agree (PendingFixed f) (Filled f) (expandArg model Γ operator keys i e source)
      (expandArg model Γ operator keys i (e.fill f) (fillSource f source)) := by
  have hbound : argSources operator keys i (e.fill f) = argSources operator keys i e := by
    unfold argSources
    rw [hf.argShape_fill]
  rcases source with _ | ⟨s, key⟩
  · unfold expandArg
    rw [hbound]
    exact (hexpand _).bind fun a b hab => agree_pure hab.1
  · exact agree_pure (hsource (s, key) rfl).filled

omit hf in
theorem agree_attachSource {source : Option (Expr × SourceKey)} (he : e.Clean) :
    StateStep.Agree (PendingFixed f) (Filled f) (attachSource e source)
      (attachSource (e.fill f) (fillSource f source)) := by
  rcases source with _ | ⟨s, key⟩
  · exact agree_pure he.filled
  · exact agree_attach he key

/-- The case of an operator call in the induction over the tree: the arguments are expanded alike,
sources first, then the others, and last the joins are put around the sources. -/
theorem agree_expand_operator {model : Model} {Γ : Scope} {bound : Nat → Option SourceKey}
    {m : Method} {receiver : Option Expr} {args : List Expr} {type : DataType}
    (he : (call m receiver args type).Clean)
    (hop : (Operator.findFor? m args).isSome = true)
    (hexpand : ∀ a ∈ args, ∀ bound, StateStep.Agree (PendingFixed f) (FilledRows f)
      (expand model Γ bound a) (expand model Γ bound (a.fill f))) :
    StateStep.Agree (PendingFixed f) (FilledRows f)
      (expand model Γ bound (call m receiver args type))
      (expand model Γ bound ((call m receiver args type).fill f)) := by
  have hop' : (Operator.findFor? m (args.map (fill f))).isSome = true := by
    rw [hf.findFor?_fill, hop]
  rw [fill_call, expand_operator hop, expand_operator hop', List.mapM_map]
  refine (StateStep.Agree.mapM fun a ha =>
    agree_expandSource hf (hexpand a ha _)).bind fun sources _ hsources => ?_
  obtain ⟨hclean, rfl⟩ := eq_map_of_forall₂ hsources.1
  -- The keys of the sources are the same, and positions of arguments stay.
  have hkeys : ((sources.map (fillSource f)).filterMap fun s => s.map (·.2)) =
      sources.filterMap fun s => s.map (·.2) := by
    rw [List.filterMap_map]
    refine List.filterMap_congr fun s _ => ?_
    cases s <;> rfl
  have hzip : ((args.map (fill f)).zip (sources.map (fillSource f))).zipIdx =
      (args.zip sources).zipIdx.map
        fun a => ((a.1.1.fill f, fillSource f a.1.2), a.2) := by
    rw [List.zip_map, List.zipIdx_map]
    rfl
  dsimp only
  rw [hkeys, hzip, List.mapM_map]
  refine (StateStep.Agree.mapM (R := Filled f) fun a ha => ?_).bind fun args' _ hargs' => ?_
  · have hmem := List.of_mem_zip (List.fst_mem_of_mem_zipIdx ha)
    exact agree_expandArg hf (hexpand _ hmem.1) (hclean _ hmem.2)
  obtain ⟨hclean', rfl⟩ := eq_map_of_forall₂ hargs'.1
  have hzip' : (args'.map (fill f)).zip (sources.map (fillSource f)) =
      (args'.zip sources).map fun a => (a.1.fill f, fillSource f a.2) := by
    rw [List.zip_map]
    rfl
  rw [hzip', List.mapM_map]
  refine (StateStep.Agree.mapM fun a ha =>
    agree_attachSource (hclean' _ (List.of_mem_zip ha).1)).bind fun args'' _ hargs'' => ?_
  obtain ⟨hclean'', rfl⟩ := eq_map_of_forall₂ hargs''.1
  rw [← fill_call]
  exact agree_rebuild hf he hclean'' _ _

end Operators

include hf

/-- The expansion of a clean tree and that of the tree filled in agree, if nothing in scope is a
placeholder. -/
theorem agree_expand {model : Model} {Γ : Scope} (hΓ : BindsUnreserved Γ)
    {bound : Nat → Option SourceKey} (he : e.Clean) :
    StateStep.Agree (PendingFixed f) (FilledRows f) (expand model Γ bound e)
      (expand model Γ bound (e.fill f)) := by
  induction e using childInduction generalizing Γ bound with
  | step e ih =>
    have hplain : StateStep.Agree (PendingFixed f) (FilledRows f)
        (do return (← e.traverse fun c _ => Prod.fst <$> expand model Γ (fun _ => none) c, none))
        (do return (← (e.fill f).traverse fun c _ =>
          Prod.fst <$> expand model Γ (fun _ => none) c, none)) := by
      refine (hf.stepAgree_traverse he fun c hc => ?_).bind fun r r' hr => agree_pure ⟨hr, rfl⟩
      exact (ih c hc hΓ (he.child hc)).map fun a b hab => hab.1
    -- A placeholder is a plain node, filled in or not, so both sides take the same branch.
    cases e with
    | call m receiver args type =>
      have hargs : ∀ a ∈ args, a ∈ (call m receiver args type).children :=
        fun a ha => List.mem_append_right _ ha
      cases hop : (Operator.findFor? m args).isSome with
      | true =>
        exact agree_expand_operator hf he hop fun a ha bound =>
          ih a (hargs a ha) hΓ (he.child (hargs a ha))
      | false =>
        have hop' : (Operator.findFor? m (args.map (fill f))).isSome = false := by
          rw [hf.findFor?_fill, hop]
        rw [expand_call hop, fill_call, expand_call hop', ← fill_call]
        exact hplain
    | quote inner =>
      rw [fill_quote, expand, expand]
      refine (ih inner (by simp [children]) hΓ (clean_quote.mp he)).bind fun a b hab => ?_
      refine agree_pure ⟨⟨clean_quote.mpr hab.1.1, ?_⟩, rfl⟩
      rw [fill_quote, hab.1.2]
    | lambda params body =>
      obtain ⟨hparams, hbody⟩ := clean_lambda.mp he
      have hΓ' : BindsUnreserved (Γ.bind params bound) := hΓ.bind hparams _
      rw [fill_lambda, expand, expand]
      refine (ih body (by simp [children]) hΓ' hbody).bind fun a b hab => ?_
      refine agree_pure ⟨⟨clean_lambda.mpr ⟨hparams, hab.1.1⟩, ?_⟩, rfl⟩
      rw [fill_lambda, hab.1.2]
    | member row name type =>
      rw [fill_member, expand, expand]
      refine (ih row (by simp [children]) hΓ (clean_member.mp he)).bind fun a b hab => ?_
      rw [hab.1.2]
      exact (agree_expandMember hf hΓ hab.1.1 name type).bind fun r r' hr => agree_pure ⟨hr, rfl⟩
    | _ =>
      rw [expand_eq_traverse (by simp [kindName]) (by simp [kindName]) (by simp [kindName])
        (by simp [kindName]),
        expand_eq_traverse (hf.kindName_fill_ne (by decide) (by simp [kindName]))
        (hf.kindName_fill_ne (by decide) (by simp [kindName]))
        (hf.kindName_fill_ne (by decide) (by simp [kindName]))
        (hf.kindName_fill_ne (by decide) (by simp [kindName]))]
      exact hplain

end QueryLowering.Pass.Navigation
