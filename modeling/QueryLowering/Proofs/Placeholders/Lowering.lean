import QueryLowering.Compiler
import QueryLowering.Proofs.Placeholders.Navigation
import QueryLowering.Proofs.Placeholders.NullGuard
import QueryLowering.Proofs.Placeholders.Rules

/-!
Lowering does not tell a placeholder from what may be filled in for it, apart from the removal of
null guards. A tree and the same tree filled in are lowered to a tree and the same tree filled in,
with the same metadata, or fail alike, unless removal leaves a guard of a literal.
-/

namespace QueryLowering

open QueryLowering.Expr Literals StateStep

variable {f : Param → Option Expr} {e r : Expr}

namespace Pass

namespace Markers

/-- The node, if it is a marker, has no placeholder for its further argument. -/
def ProperTag : Expr → Prop
  | .call m _ (_ :: arg :: _) _ =>
    (Marker.of? m).isSome = true → ∀ p, arg = .param p → ¬ Reserved p.name
  | _ => True

theorem properTag_of_kindName (h : e.kindName ≠ "MethodCall") : ProperTag e := by
  cases e with
  | call => exact absurd rfl h
  | _ => trivial

theorem tag?_fill (hf : StandIns f) {arg : Option Expr}
    (h : ∀ p, arg = some (.param p) → ¬ Reserved p.name) : tag? (arg.map (fill f)) = tag? arg := by
  cases arg with
  | none => rfl
  | some x =>
    cases x with
    | param p => rw [Option.map_some, hf.fill_param_of_not_reserved (h p rfl)]
    | _ => simp [tag?]

/-- Markers are recorded alike if they have the same tag. -/
theorem agree_note {marker : Marker} {arg arg' : Option Expr} (h : tag? arg' = tag? arg)
    (node node' : Expr) :
    StateStep.Agree (fun _ => True) Eq (note marker arg node) (note marker arg' node') := by
  have hrecord : ∀ m, record marker arg' m = record marker arg m := by
    intro m
    cases marker with
    | tagWith => rw [record, record, h]
    | _ => rfl
  intro s _
  unfold note
  refine (agree_get (I := fun _ => True) s trivial).bind fun m m' s' _ hm _ => ?_
  obtain ⟨rfl, -⟩ := hm
  rw [hrecord]
  cases record marker arg m with
  | some recorded => exact .ok rfl trivial
  | none => exact .error rfl

theorem agree_strip (hf : StandIns f) (he : e.Clean) (htag : e.Everywhere ProperTag) :
    StateStep.Agree (fun _ => True) (Filled f) (strip e) (strip (e.fill f)) := by
  induction e using childInduction with
  | step e ih =>
    have hchildren : ∀ c ∈ e.children,
        StateStep.Agree (fun _ => True) (Filled f) (strip c) (strip (c.fill f)) :=
      fun c hc => ih c hc (he.child hc) (htag.child hc)
    cases e with
    | call m receiver args type =>
      cases hm : Marker.of? m with
      | none =>
        rw [strip_call hm, fill_call, strip_call hm, ← fill_call]
        exact hf.stepAgree_traverse he hchildren
      | some marker =>
        rw [fill_call]
        cases args with
        | nil =>
          rw [strip_marker_nil hm, List.map_nil, strip_marker_nil hm]
          exact agree_throw rfl
        | cons source rest =>
          -- The tag is looked at as it is, so it must not be a placeholder.
          have hhead : ∀ p, rest.head? = some (.param p) → ¬ Reserved p.name := by
            intro p hp
            obtain ⟨more, rfl⟩ := List.head?_eq_some_iff.mp hp
            exact htag.root (by simp [hm]) p rfl
          have hsource := hchildren source (by simp [children])
          rw [List.map_cons, strip_marker hm, strip_marker hm, List.head?_map]
          refine hsource.bind fun s s' hs => ?_
          exact (agree_note (tag?_fill hf hhead) _ _).bind fun _ _ _ => agree_pure hs
    | _ =>
      rw [strip_eq_traverse (by simp [kindName]),
        strip_eq_traverse (hf.kindName_fill_ne (by decide) (by simp [kindName]))]
      exact hf.stepAgree_traverse he hchildren

end Markers

namespace Promotion

open Markers

/-- Promotion makes no parameters. -/
theorem eq_param_of_bottomUp {p : Param} (h : bottomUp rule e = .ok (.param p)) :
    e = .param p := by
  obtain ⟨cs, -, happly⟩ := bottomUp_eq_ok.mp h
  rcases Rule.apply_eq_ok.mp happly with ⟨-, hnode⟩ | hsome
  · exact eq_param_of_setChildren hnode.symm
  · obtain ⟨m, source, rest, type, source', -, -, -, -, hcall⟩ := rule_eq_some hsome
    obtain ⟨op, type', -, -, hnode⟩ := callOperator_eq_ok hcall
    cases hnode

/-- A marker keeps a proper tag, since the tag is promoted to no placeholder. -/
theorem properTag_setChildren {cs : List Expr} (he : ProperTag e)
    (hcs : List.Forall₂ (fun c d => bottomUp rule c = .ok d) e.children cs) :
    ProperTag (e.setChildren cs) := by
  cases e with
  | call m receiver args type =>
    have hargs : ∀ {args' : List Expr} {receiver' : Option Expr},
        List.Forall₂ (fun c d => bottomUp rule c = .ok d) args args' →
          ProperTag (.call m receiver' args' type) := by
      intro args' receiver' hforall
      rcases hforall with _ | ⟨-, _ | ⟨htag, -⟩⟩
      · trivial
      · trivial
      · intro hm p hp
        subst hp
        exact he hm p (eq_param_of_bottomUp htag)
    cases receiver with
    | none => exact hargs hcs
    | some receiver =>
      obtain ⟨receiver', args', -, hrest, rfl⟩ := List.forall₂_cons_left_iff.mp hcs
      exact hargs hrest
  | _ => exact properTag_of_kindName (by rw [kindName_setChildren]; simp [kindName])

theorem properTag_of_not_marker {m : Method} {receiver : Option Expr} {args : List Expr}
    {type : DataType} (hm : Marker.of? m = none) : ProperTag (.call m receiver args type) := by
  unfold ProperTag
  split
  · rename_i heq
    cases heq
    intro hsome
    rw [hm] at hsome
    cases hsome
  · trivial

theorem properTag_rule (he : e.Everywhere ProperTag) (h : rule e = .ok (some r)) :
    r.Everywhere ProperTag := by
  obtain ⟨m, source, rest, type, source', rfl, howner, hfind, hsource', hcall⟩ := rule_eq_some h
  have hsource : source.Everywhere ProperTag := he.child (by simp [children])
  have hpromoted : source'.Everywhere ProperTag := by
    unfold promoteSource at hsource'
    split at hsource'
    · cases hsource'
      exact hsource
    · obtain ⟨op, type', -, -, rfl⟩ := callOperator_eq_ok hsource'
      refine everywhere_iff.mpr ⟨properTag_of_not_marker rfl, ?_⟩
      simpa [children] using hsource
  have hrest : ∀ a ∈ rest.map quoteLambda, a.Everywhere ProperTag := by
    refine List.forall_mem_map.mpr fun a ha => ?_
    have hmem : a.Everywhere ProperTag := he.child (by simp [children, ha])
    unfold quoteLambda
    split
    · exact everywhere_iff.mpr ⟨trivial, by simpa [children] using hmem⟩
    · exact hmem
  have hfind : (Operator.find? Family.inMemory.owner m.name
      ((source :: rest).map ArgShape.of)).isSome = true := by
    rw [← howner]
    exact hfind
  obtain ⟨op, type', -, -, rfl⟩ := callOperator_eq_ok hcall
  refine everywhere_iff.mpr ⟨properTag_of_not_marker (Operator.marker_of?_of_inMemory hfind _), ?_⟩
  exact List.forall_mem_cons.mpr ⟨hpromoted, hrest⟩

theorem properTag_bottomUp (he : e.Everywhere ProperTag) (h : bottomUp rule e = .ok r) :
    r.Everywhere ProperTag := by
  induction e using childInduction generalizing r with
  | step e ih =>
    obtain ⟨cs, hcs, happly⟩ := bottomUp_eq_ok.mp h
    have hnode : (e.setChildren cs).Everywhere ProperTag := by
      refine everywhere_iff.mpr ⟨properTag_setChildren he.root hcs, ?_⟩
      rw [children_setChildren hcs.length_eq.symm]
      exact forall_mem_of_forall₂ hcs fun c hc d hd => ih c hc (he.child hc) hd
    rcases Rule.apply_eq_ok.mp happly with ⟨-, rfl⟩ | hsome
    · exact hnode
    · exact properTag_rule hnode hsome

end Promotion

namespace DatabaseFunction

theorem agree_resolveCall (hf : StandIns f) (set : FunctionSet) (position : Position)
    {args : List Expr} (hargs : ∀ a ∈ args, a.Clean) (node node' : Expr) :
    StateStep.Agree (fun _ => True) (Filled f) (resolveCall set position args node)
      (resolveCall set position (args.map (fill f)) node') := by
  have hresolve : QueryLowering.Agree Eq
      ((set.resolve (args.map Expr.type)).mapError fun failure => failure.atNode node)
      ((set.resolve ((args.map (fill f)).map Expr.type)).mapError
        fun failure => failure.atNode node') := by
    rw [hf.map_type_fill]
    exact (agree_self fun _ _ => rfl).mapError (fun _ => rfl) fun _ => rfl
  unfold resolveCall
  refine (agree_ofExcept hresolve).bind fun function _ heq => ?_
  subst heq
  split
  · exact agree_pure ⟨clean_functionCall.mpr hargs, (fill_functionCall _ _).symm⟩
  · split
    · refine (agree_modifyGet (R := Eq) fun s _ => ⟨rfl, rfl, trivial⟩).bind fun a _ heq => ?_
      subst heq
      exact agree_pure ⟨clean_tableFunction.mpr hargs, (fill_tableFunction _ _ _).symm⟩
    · exact agree_throw rfl

theorem childPosition_fill (hf : StandIns f) (e : Expr) (i : Nat) :
    childPosition (e.fill f) i = childPosition e i := by
  have hsource : (e.fill f).isRowSourceChild = e.isRowSourceChild := by
    by_cases hparam : ∃ p, e = .param p
    · obtain ⟨p, rfl⟩ := hparam
      exact hf.of_fill_param (P := fun x => x.isRowSourceChild =
        (Expr.param p).isRowSourceChild) (fun _ => rfl) fun _ _ => rfl
    · rw [fill_node fun p hp => hparam ⟨p, hp⟩, isRowSourceChild_setChildren]
  rw [childPosition, childPosition, hsource]

/-- The case of a call in the induction over the tree. It is the call of a function, of an operator,
or of another method, before and after filling in. -/
theorem agree_resolve_call (hf : StandIns f) {catalog : Catalog} {position : Position}
    {m : Method} {receiver : Option Expr} {args : List Expr} {type : DataType}
    (he : (call m receiver args type).Clean)
    (hchildren : ∀ position, ∀ c ∈ (call m receiver args type).children,
      StateStep.Agree (fun _ => True) (Filled f) (resolve catalog position c)
        (resolve catalog position (c.fill f))) :
    StateStep.Agree (fun _ => True) (Filled f)
      (resolve catalog position (call m receiver args type))
      (resolve catalog position ((call m receiver args type).fill f)) := by
  have hargs : ∀ position, ∀ a ∈ args, StateStep.Agree (fun _ => True) (Filled f)
      (resolve catalog position a) (resolve catalog position (a.fill f)) :=
    fun position a ha => hchildren position a (List.mem_append_right _ ha)
  cases hset : catalog.find? m with
  | some set =>
    rw [resolve_function hset, fill_call, resolve_function hset, List.mapM_map]
    refine (StateStep.Agree.mapM fun a ha => hargs .value a ha).bind fun args' _ hargs' => ?_
    obtain ⟨hclean, rfl⟩ := eq_map_of_forall₂ hargs'.1
    exact agree_resolveCall hf set position hclean _ _
  | none =>
    have hfind := hf.findFor?_fill m args
    cases hop : (Operator.findFor? m args).isSome with
    | true =>
      have hop' : (Operator.findFor? m (args.map (fill f))).isSome = true := by rw [hfind, hop]
      rw [resolve_operator hset hop, fill_call, resolve_operator hset hop', List.zipIdx_map,
        List.mapM_map, ← fill_call]
      refine (StateStep.Agree.mapM (R := Filled f) fun a ha => ?_).bind fun args' _ hargs' => ?_
      · -- The position of an argument depends on its shape, which is kept.
        have hposition : argPosition m.name a.2 (a.1.fill f) = argPosition m.name a.2 a.1 := by
          rw [argPosition, argPosition, hf.argShape_fill]
        change StateStep.Agree _ _ _
          (resolve catalog (argPosition m.name a.2 (a.1.fill f)) (a.1.fill f))
        rw [hposition]
        exact hargs _ a.1 (List.fst_mem_of_mem_zipIdx ha)
      · obtain ⟨hclean, rfl⟩ := eq_map_of_forall₂ hargs'.1
        exact agree_ofExcept (hf.agree_withChildren he hclean)
    | false =>
      have hop' : (Operator.findFor? m (args.map (fill f))).isSome = false := by rw [hfind, hop]
      rw [resolve_call hset hop, fill_call, resolve_call hset hop', ← fill_call]
      exact hf.stepAgree_traverse he (hchildren .value)

theorem agree_resolve (hf : StandIns f) {catalog : Catalog} {position : Position} (he : e.Clean) :
    StateStep.Agree (fun _ => True) (Filled f) (resolve catalog position e)
      (resolve catalog position (e.fill f)) := by
  induction e using childInduction generalizing position with
  | step e ih =>
    have hchildren : ∀ position, ∀ c ∈ e.children, StateStep.Agree (fun _ => True) (Filled f)
        (resolve catalog position c) (resolve catalog position (c.fill f)) :=
      fun _ c hc => ih c hc (he.child hc)
    cases e with
    | call m receiver args type => exact agree_resolve_call hf he hchildren
    | quote inner =>
      rw [fill_quote, resolve, resolve]
      refine (hchildren _ inner (by simp [children])).map fun a b hab => ?_
      exact ⟨clean_quote.mpr hab.1, by rw [fill_quote, hab.2]⟩
    | lambda params body =>
      have hparams := (clean_lambda.mp he).1
      rw [fill_lambda, resolve, resolve]
      refine (hchildren _ body (by simp [children])).map fun a b hab => ?_
      exact ⟨clean_lambda.mpr ⟨hparams, hab.1⟩, by rw [fill_lambda, hab.2]⟩
    | _ =>
      rw [resolve_eq_traverseIdx (by simp [kindName]) (by simp [kindName]) (by simp [kindName]),
        resolve_eq_traverseIdx (hf.kindName_fill_ne (by decide) (by simp [kindName]))
          (hf.kindName_fill_ne (by decide) (by simp [kindName]))
          (hf.kindName_fill_ne (by decide) (by simp [kindName]))]
      simp only [childPosition_fill hf]
      exact hf.stepAgree_traverseIdx he fun i c hc => hchildren _ c hc

end DatabaseFunction

variable {ctx : Context}

/-- The passes that run before null guards are removed. -/
def beforeNullGuard : List Pass := [promotion, markers, inlining, membership, groupJoin]

/-- The passes that run after null guards have been removed. -/
def afterNullGuard : List Pass := [keyComparison, memberPushdown, navigation, databaseFunction]

theorem all_eq_nullGuard : all = beforeNullGuard ++ nullGuard :: afterNullGuard := rfl

/-- Passes that never look at whether a leaf is a parameter or a literal. -/
def isUniform : Pass → Bool
  | markers | nullGuard => false
  | _ => true

theorem agree_run_navigation (hf : StandIns f) {model : Model} (he : e.Clean) :
    StateStep.Agree (fun _ => True) (Filled f) (Navigation.run model e)
      (Navigation.run model (e.fill f)) := by
  intro s _
  have hexpand : AgreeAt (Navigation.PendingFixed f) (Navigation.FilledRows f)
      ((Navigation.expand model [] (fun _ => none) e).run.run { state := s })
      ((Navigation.expand model [] (fun _ => none) (e.fill f)).run.run { state := s }) :=
    Navigation.agree_expand hf (fun _ hb => absurd hb List.not_mem_nil) he { state := s }
      fun _ hj => absurd hj List.not_mem_nil
  rw [Navigation.run_run, Navigation.run_run]
  generalize (Navigation.expand model [] (fun _ => none) e).run.run { state := s } = left
    at hexpand ⊢
  generalize (Navigation.expand model [] (fun _ => none) (e.fill f)).run.run { state := s } = right
    at hexpand ⊢
  cases hexpand with
  | error hkind => exact .error hkind
  | @ok a b x hab hx =>
    obtain ⟨r, key⟩ := a
    obtain ⟨r', key'⟩ := b
    dsimp only
    split
    · exact .ok hab.1 trivial
    · exact .error rfl

/-- A uniform pass gives a tree and the same tree filled in, or fails alike. -/
theorem agree_run (hf : StandIns f) {p : Pass} (hp : p.isUniform = true) (he : e.Clean) :
    StateStep.Agree (fun _ => True) (Filled f) (p.run ctx e) (p.run ctx (e.fill f)) := by
  cases p with
  | promotion =>
    exact agree_ofExcept (hf.agree_bottomUp he fun _ hn => Promotion.agree_rule hf hn)
  | inlining => exact agree_ofExcept (Inlining.agree_inline hf he)
  | membership =>
    exact agree_ofExcept (hf.agree_bottomUp he fun _ hn => Membership.agree_rule hf hn)
  | groupJoin =>
    exact agree_ofExcept (hf.agree_bottomUp he fun _ hn => GroupJoin.agree_rule hf hn)
  | keyComparison =>
    exact agree_ofExcept (hf.agree_bottomUp he fun _ hn => KeyComparison.agree_rule hf hn)
  | memberPushdown =>
    exact agree_ofExcept (hf.agree_bottomUp he fun _ hn => MemberPushdown.agree_rule hf hn)
  | navigation => exact agree_run_navigation hf he
  | databaseFunction => exact DatabaseFunction.agree_resolve hf he
  | markers | nullGuard => cases hp

/-- Markers are taken out alike if their tags are proper. -/
theorem agree_run_markers (hf : StandIns f) (he : e.Clean)
    (htag : e.Everywhere Markers.ProperTag) :
    StateStep.Agree (fun _ => True) (Filled f) (markers.run ctx e) (markers.run ctx (e.fill f)) := by
  intro s _
  have hstrip := Markers.agree_strip hf he htag s.metadata trivial
  have hrun : ∀ x, (markers.run ctx x).run.run s =
      (((Markers.strip x).run.run s.metadata).1,
        { s with metadata := ((Markers.strip x).run.run s.metadata).2 }) := fun _ => rfl
  rw [hrun, hrun]
  generalize (Markers.strip e).run.run s.metadata = left at hstrip ⊢
  generalize (Markers.strip (e.fill f)).run.run s.metadata = right at hstrip ⊢
  cases hstrip with
  | ok hab _ => exact .ok hab trivial
  | error hkind => exact .error hkind

/-- Naming the pass in a failure does not change its kind. -/
theorem agreeAt_runNamed {p : Pass} {e e' : Expr} {R : Expr → Expr → Prop} {s : State}
    (h : AgreeAt (fun _ => True) R ((p.run ctx e).run.run s) ((p.run ctx e').run.run s)) :
    AgreeAt (fun _ => True) R ((p.runNamed ctx e).run.run s) ((p.runNamed ctx e').run.run s) := by
  rw [run_runNamed, run_runNamed]
  generalize (p.run ctx e).run.run s = left at h ⊢
  generalize (p.run ctx e').run.run s = right at h ⊢
  cases h with
  | ok hab hs => exact .ok hab hs
  | error hkind =>
    refine .error ?_
    rw [Failure.kind_withFieldIfAbsent, Failure.kind_withFieldIfAbsent, hkind]

theorem agree_runAll (hf : StandIns f) {ps : List Pass} (hps : ∀ p ∈ ps, p.isUniform = true)
    (he : e.Clean) :
    StateStep.Agree (fun _ => True) (Filled f) (runAll ctx ps e) (runAll ctx ps (e.fill f)) := by
  induction ps generalizing e with
  | nil => exact agree_pure he.filled
  | cons p ps ih =>
    obtain ⟨hp, hrest⟩ := List.forall_mem_cons.mp hps
    have hfirst : StateStep.Agree (fun _ => True) (Filled f) (p.runNamed ctx e)
        (p.runNamed ctx (e.fill f)) := fun s hs => agreeAt_runNamed (agree_run hf hp he s hs)
    refine hfirst.bind fun r r' hr => ?_
    rw [hr.2]
    exact ih hrest hr.1

theorem runAll_append (ps qs : List Pass) (e : Expr) :
    runAll ctx (ps ++ qs) e = runAll ctx ps e >>= runAll ctx qs := by
  induction ps generalizing e with
  | nil => exact (pure_bind e (runAll ctx qs)).symm
  | cons p ps ih =>
    rw [List.cons_append, runAll, runAll, bind_assoc]
    exact bind_congr fun r => ih r

/-- The passes up to the removal of null guards agree: promotion leaves proper tags, and once the
markers are out, all passes are uniform. -/
theorem agree_runAll_beforeNullGuard (hf : StandIns f) (he : e.Clean)
    (htag : e.Everywhere Markers.ProperTag) :
    StateStep.Agree (fun _ => True) (Filled f) (runAll ctx beforeNullGuard e)
      (runAll ctx beforeNullGuard (e.fill f)) := by
  have hpromotion : StateStep.Agree (fun _ => True)
      (fun r r' => Filled f r r' ∧ r.Everywhere Markers.ProperTag) (promotion.runNamed ctx e)
      (promotion.runNamed ctx (e.fill f)) := by
    have hrule : QueryLowering.Agree (Filled f) (bottomUp Promotion.rule e)
        (bottomUp Promotion.rule (e.fill f)) :=
      hf.agree_bottomUp he fun _ hn => Promotion.agree_rule hf hn
    have htagged := hrule.of_left fun r hr => Promotion.properTag_bottomUp htag hr
    exact fun s hs => agreeAt_runNamed (agree_ofExcept htagged s hs)
  refine hpromotion.bind fun r r' hr => ?_
  obtain ⟨⟨hclean, rfl⟩, htag⟩ := hr
  have hmarkers : StateStep.Agree (fun _ => True) (Filled f) (markers.runNamed ctx r)
      (markers.runNamed ctx (r.fill f)) :=
    fun s hs => agreeAt_runNamed (agree_run_markers hf hclean htag s hs)
  refine hmarkers.bind fun q q' hq => ?_
  obtain ⟨hq, rfl⟩ := hq
  exact agree_runAll hf (by decide) hq

end Pass

/-- No guard of a literal is left when the null guards of a query have been removed. -/
def LiteralsUnguarded (ctx : Context) (f : Param → Option Expr) (e : Expr) : Prop :=
  ∀ r s, (Pass.runAll ctx Pass.beforeNullGuard e).Gives .fresh r s →
    ∀ n ∈ (Pass.NullGuard.run ctx.model r).nodes, ¬ Pass.NullGuard.LiteralGuard f n

/-- Lowering goes alike on a tree and on the tree filled in if no guard of a literal is left. -/
theorem agree_lower (hf : StandIns f) {ctx : Context} (he : e.Clean)
    (htag : e.Everywhere Pass.Markers.ProperTag) (hguard : LiteralsUnguarded ctx f e) :
    Agree (fun l l' => Filled f l.expr l'.expr ∧ l'.metadata = l.metadata) (lower ctx e)
      (lower ctx (e.fill f)) := by
  have hrun : AgreeAt (fun _ => True) (Filled f) ((Pass.runAll ctx Pass.all e).run.run .fresh)
      ((Pass.runAll ctx Pass.all (e.fill f)).run.run .fresh) := by
    -- The removal of null guards is the one pass in the list that is not uniform.
    rw [Pass.all_eq_nullGuard, Pass.runAll_append, Pass.runAll_append]
    refine (Pass.agree_runAll_beforeNullGuard hf he htag .fresh trivial).bind
      fun r r' s hr hfilled _ => ?_
    obtain ⟨hclean, rfl⟩ := hfilled
    have hremoved : Pass.NullGuard.run ctx.model (r.fill f) =
        (Pass.NullGuard.run ctx.model r).fill f :=
      (Pass.NullGuard.run_fill_iff hf hclean).mpr (hguard r s hr)
    have hnullGuard : AgreeAt (fun _ => True) (Filled f)
        ((Pass.nullGuard.run ctx r).run.run s) ((Pass.nullGuard.run ctx (r.fill f)).run.run s) := by
      refine .ok ⟨?_, hremoved⟩ trivial
      exact Pass.NullGuard.everywhere_remove hygienic_setChildren hclean
    refine (Pass.agreeAt_runNamed hnullGuard).bind fun q q' s' _ hq _ => ?_
    obtain ⟨hq, rfl⟩ := hq
    exact Pass.agree_runAll hf (by decide) hq s' trivial
  unfold lower
  generalize (Pass.runAll ctx Pass.all e).run.run .fresh = left at hrun ⊢
  generalize (Pass.runAll ctx Pass.all (e.fill f)).run.run .fresh = right at hrun ⊢
  cases hrun with
  | ok hab _ => exact .ok ⟨hab, rfl⟩
  | error hkind => exact .error hkind

namespace Verification

theorem isInlinable_fill (hf : StandIns f) (e : Expr) : isInlinable (e.fill f) = isInlinable e := by
  cases e with
  | param p =>
    refine hf.of_fill_param (P := fun x => isInlinable x = false) (fun _ => rfl) fun v hv => ?_
    -- Delegates are not literals.
    cases v with
    | delegate => cases hv
    | _ => rfl
  | _ => simp [isInlinable]

theorem violation?_fill (hf : StandIns f) {model : Model} (e : Expr) :
    violation? model (e.fill f) = violation? model e := by
  cases e with
  | invoke callee args type => rw [fill_invoke, violation?, violation?, isInlinable_fill hf]
  | binary op left right =>
    rw [fill_binary, violation?, violation?, hf.type_fill, hf.type_fill]
  | member target name type => rw [fill_member, violation?, violation?, hf.type_fill]
  | param p =>
    exact hf.of_fill_param (P := fun x => violation? model x = none) (fun _ => rfl) fun _ _ => rfl
  | _ => simp [violation?]

theorem agree_verify (hf : StandIns f) (model : Model) (e : Expr) :
    Agree Eq (verify model e) (verify model (e.fill f)) := by
  have hfirst : firstViolation? model (e.fill f) =
      (firstViolation? model e).map fun v => (v.1.fill f, v.2) := by
    unfold firstViolation?
    rw [hf.nodes_fill, List.findSome?_map]
    induction e.nodes with
    | nil => rfl
    | cons n ns ih =>
      rw [List.findSome?_cons, List.findSome?_cons, Function.comp, violation?_fill hf]
      cases violation? model n with
      | none => exact ih
      | some message => rfl
  unfold verify
  rw [hfirst]
  cases firstViolation? model e with
  | none => exact .ok rfl
  | some v => exact .error rfl

end Verification

/-- A shape and the shape filled in are lowered and verified alike. -/
theorem Compiler.agree_lowerShape (hf : StandIns f) {ctx : Context} (settings : Settings)
    (he : e.Clean) (htag : e.Everywhere Pass.Markers.ProperTag)
    (hguard : LiteralsUnguarded ctx f e) :
    Agree (fun a b => Filled f a.expr b.expr ∧ b.metadata = a.metadata)
      (lowerShape ctx settings e) (lowerShape ctx settings (e.fill f)) := by
  unfold lowerShape
  refine (agree_lower hf he htag hguard).bind fun l l' hl => ?_
  obtain ⟨⟨hclean, hfill⟩, hmetadata⟩ := hl
  have hverify := Verification.agree_verify hf ctx.model l.expr
  rw [← hfill] at hverify
  by_cases hsetting : settings.verifyResult = true
  · simp only [if_pos hsetting]
    exact hverify.bind fun _ _ _ => .ok ⟨⟨hclean, hfill⟩, hmetadata⟩
  · simp only [if_neg hsetting]
    exact .ok ⟨⟨hclean, hfill⟩, hmetadata⟩

end QueryLowering
