import QueryLowering.Proofs.Everywhere
import QueryLowering.Proofs.Pipeline
import QueryLowering.Proofs.Unfolding

/-!
Failures that passes raise. What is known of the failures of the parts of a computation is known of
its own, through all combinators; so for each pass it is told which fields its failures have. None of
them names a pass. Those that come from an operator call name no node either.
-/

namespace QueryLowering

variable {α β σ : Type} {F G : Failure → Prop}

/-- Every failure of the result is one of the given. -/
def FailsOnly (F : Failure → Prop) (x : Except Failure α) : Prop := ∀ f, x = .error f → F f

namespace FailsOnly

variable {x : Except Failure α}

theorem ok (a : α) : FailsOnly F (.ok a : Except Failure α) := by
  intro f hf
  cases hf

theorem error {f : Failure} (h : F f) : FailsOnly F (.error f : Except Failure α) := by
  intro g hg
  cases hg
  exact h

theorem of_eq_ok {a : α} (h : x = .ok a) : FailsOnly F x := by
  rw [h]
  exact ok a

theorem mono (h : FailsOnly F x) (hFG : ∀ f, F f → G f) : FailsOnly G x := fun f hf => hFG f (h f hf)

theorem bind {f : α → Except Failure β} (h : FailsOnly F x) (hf : ∀ a, FailsOnly F (f a)) :
    FailsOnly F (x >>= f) := by
  intro g hg
  cases x with
  | error e =>
    cases hg
    exact h _ rfl
  | ok a => exact hf a g hg

theorem map {f : α → β} (h : FailsOnly F x) : FailsOnly F (f <$> x) := by
  rw [map_eq_pure_bind]
  exact h.bind fun a => ok (f a)

theorem mapM {f : α → Except Failure β} {xs : List α} (h : ∀ x ∈ xs, FailsOnly F (f x)) :
    FailsOnly F (xs.mapM f) := by
  induction xs with
  | nil => exact ok []
  | cons x xs ih =>
    rw [List.mapM_cons]
    refine (h x List.mem_cons_self).bind fun y => ?_
    exact (ih fun x hx => h x (List.mem_cons_of_mem _ hx)).bind fun ys => ok (y :: ys)

theorem of_bind {f : α → Except Failure β} (h : FailsOnly F (x >>= f)) : FailsOnly F x := by
  intro g hg
  refine h g ?_
  rw [hg]
  rfl

theorem of_map {f : α → β} (h : FailsOnly F (f <$> x)) : FailsOnly F x := by
  rw [map_eq_pure_bind] at h
  exact h.of_bind

/-- Two functions that agree wherever the failures of the first are of the given agree on a list for
which these are. -/
theorem mapM_eq {f g : α → Except Failure β} {xs : List α}
    (hfg : ∀ x ∈ xs, FailsOnly F (f x) → g x = f x) (h : FailsOnly F (xs.mapM f)) :
    xs.mapM g = xs.mapM f := by
  induction xs with
  | nil => rfl
  | cons x xs ih =>
    rw [List.mapM_cons] at h
    rw [List.mapM_cons, List.mapM_cons, hfg x List.mem_cons_self h.of_bind]
    cases hx : f x with
    | error e => rfl
    | ok y =>
      rw [hx] at h
      have hxs : FailsOnly F (xs.mapM f) := of_bind (f := fun ys => pure (y :: ys)) h
      rw [ih (fun z hz => hfg z (List.mem_cons_of_mem _ hz)) hxs]

theorem mapError {f : Failure → Failure} (h : FailsOnly F x) (hf : ∀ g, F g → G (f g)) :
    FailsOnly G (x.mapError f) := by
  intro g hg
  cases x with
  | error e =>
    cases hg
    exact hf e (h e rfl)
  | ok a => cases hg

end FailsOnly

namespace StateStep

/-- Every failure of the step, from whatever state, is one of the given. -/
def FailsOnly (F : Failure → Prop) (x : StateStep σ α) : Prop :=
  ∀ s, QueryLowering.FailsOnly F (x.run.run s).1

theorem failsOnly_pure (a : α) : (Pure.pure a : StateStep σ α).FailsOnly F := fun _ => .ok a

theorem failsOnly_throw {f : Failure} (h : F f) : (throw f : StateStep σ α).FailsOnly F :=
  fun _ => .error h

theorem failsOnly_get : (get : StateStep σ σ).FailsOnly F := fun s => .ok s

theorem failsOnly_modifyGet (f : σ → α × σ) : (modifyGet f : StateStep σ α).FailsOnly F :=
  fun s => .ok (f s).1

theorem failsOnly_ofExcept {x : Except Failure α} (h : QueryLowering.FailsOnly F x) :
    (ofExcept x : StateStep σ α).FailsOnly F := fun _ => h

namespace FailsOnly

variable {x : StateStep σ α}

theorem bind {f : α → StateStep σ β} (h : x.FailsOnly F) (hf : ∀ a, (f a).FailsOnly F) :
    (x >>= f).FailsOnly F := by
  intro s
  have hx := h s
  rw [run_bind]
  generalize x.run.run s = result at hx ⊢
  rcases result with ⟨e | a, t⟩
  · exact .error (hx e rfl)
  · exact hf a t

theorem map {f : α → β} (h : x.FailsOnly F) : (f <$> x).FailsOnly F := by
  rw [map_eq_pure_bind]
  exact h.bind fun a => failsOnly_pure (f a)

theorem mapM {f : α → StateStep σ β} {xs : List α} (h : ∀ x ∈ xs, (f x).FailsOnly F) :
    (xs.mapM f).FailsOnly F := by
  induction xs with
  | nil => exact failsOnly_pure []
  | cons x xs ih =>
    rw [List.mapM_cons]
    refine (h x List.mem_cons_self).bind fun y => ?_
    exact (ih fun x hx => h x (List.mem_cons_of_mem _ hx)).bind fun ys => failsOnly_pure (y :: ys)

theorem zoom {τ : Type} {get : τ → σ} {set : σ → τ → τ} (h : x.FailsOnly F) :
    (x.zoom get set).FailsOnly F := fun s => h (get s)

theorem traverseIdx {e : Expr} {f : Nat → Expr → StateStep σ Expr}
    (h : ∀ i, ∀ c ∈ e.children, (f i c).FailsOnly F) :
    (e.traverseIdx fun i c _ => f i c).FailsOnly F := by
  rw [Expr.traverseIdx_eq]
  exact map (mapM fun c hc => h c.2 c.1 (List.fst_mem_of_mem_zipIdx hc))

theorem traverse {e : Expr} {f : Expr → StateStep σ Expr} (h : ∀ c ∈ e.children, (f c).FailsOnly F) :
    (e.traverse fun c _ => f c).FailsOnly F := by
  rw [Expr.traverse_eq]
  exact map (mapM h)

end FailsOnly

end StateStep

namespace Failure

/-- The names of the fields, in their order. -/
def fieldNames (f : Failure) : List String := f.fields.map Prod.fst

@[simp] theorem fieldNames_withField (f : Failure) (name value : String) :
    (f.withField name value).fieldNames = f.fieldNames ++ [name] := by
  simp [fieldNames]

theorem isSome_field?_iff {f : Failure} {name : String} :
    (f.field? name).isSome = true ↔ name ∈ f.fieldNames := by
  unfold field? fieldNames
  induction f.fields with
  | nil => simp
  | cons p ps ih =>
    rw [List.lookup_cons, List.map_cons, List.mem_cons]
    cases hname : name == p.1 with
    | true => simp [beq_iff_eq.mp hname]
    | false =>
      rw [ih]
      simp [beq_eq_false_iff_ne.mp hname]

/-- The failure of an operator call: it may tell the shapes of the arguments, but not where it
arose. -/
structure FromOperator (f : Failure) : Prop where
  fields : ∀ name ∈ f.fieldNames, name = "shapes"
  kind : f.kind = .unsupportedShape ∨ f.kind = .internal

/-- A failure at a node. -/
structure AtNode (f : Failure) : Prop where
  node : nodeField ∈ f.fieldNames
  pass : passField ∉ f.fieldNames

/-- A failure that is an error of the program, wherever it arose. -/
structure Internal (f : Failure) : Prop where
  kind : f.kind = .internal
  pass : passField ∉ f.fieldNames

theorem AtNode.of_unnamed {f : Failure} (h : passField ∉ f.fieldNames) (e : Expr) :
    (f.atNode e).AtNode := by
  have hne : passField ≠ nodeField := by decide
  constructor
  · simp [atNode]
  · simpa [atNode, hne] using h

/-- A failure without fields is one at a node once the node has been attached. -/
theorem atNode_of_fields_eq_nil {f : Failure} (h : f.fields = []) (e : Expr) : (f.atNode e).AtNode :=
  .of_unnamed (by simp [fieldNames, h]) e

theorem FromOperator.not_mem_passField {f : Failure} (h : f.FromOperator) :
    passField ∉ f.fieldNames := fun hmem => absurd (h.fields _ hmem) (by decide)

theorem FromOperator.not_mem_nodeField {f : Failure} (h : f.FromOperator) :
    nodeField ∉ f.fieldNames := fun hmem => absurd (h.fields _ hmem) (by decide)

theorem fromOperator_unsupported (message : String) : (unsupported message).FromOperator :=
  ⟨by simp [unsupported, fieldNames], .inl rfl⟩

end Failure

open Failure

namespace Operator

theorem failsOnly_sourceElement (op : Operator) (args : List Expr) :
    FailsOnly FromOperator (op.sourceElement args) := by
  unfold sourceElement
  split
  · exact .ok _
  · exact .error (fromOperator_unsupported _)

theorem failsOnly_lambdaResultAt (op : Operator) (args : List Expr) (i : Nat) :
    FailsOnly FromOperator (op.lambdaResultAt args i) := by
  unfold lambdaResultAt
  split
  · exact .ok _
  · exact .error (fromOperator_unsupported _)

theorem failsOnly_resultType (op : Operator) (args : List Expr) :
    FailsOnly FromOperator (op.resultType args) := by
  unfold resultType
  split
  · exact (failsOnly_sourceElement op args).map
  · exact (failsOnly_lambdaResultAt op args _).map
  · refine (failsOnly_lambdaResultAt op args _).bind fun type => ?_
    split
    · exact .ok _
    · exact .error (fromOperator_unsupported _)
  · exact failsOnly_sourceElement op args
  · exact failsOnly_lambdaResultAt op args _
  · exact .ok _
  · exact .ok _
  · exact (failsOnly_sourceElement op args).map
  · split
    · exact .ok _
    · exact .error ⟨by simp [internalError, fieldNames], .inr rfl⟩

end Operator

theorem failsOnly_callOperator (owner name : String) (args : List Expr) :
    FailsOnly FromOperator (callOperator owner name args) := by
  unfold callOperator
  dsimp only
  split
  · exact (Operator.failsOnly_resultType _ args).bind fun type => .ok _
  · exact .error ⟨by simp [unsupported, fieldNames], .inl rfl⟩

theorem failsOnly_withChildren (e : Expr) (cs : List Expr) :
    FailsOnly Internal (e.withChildren cs) := by
  unfold Expr.withChildren
  split
  · exact .ok _
  · exact .error ⟨rfl, by simp [internalError, fieldNames]⟩

namespace Pass

theorem failsOnly_bottomUp {rule : Rule} (hrule : ∀ e, FailsOnly F (rule e)) (e : Expr) :
    FailsOnly F (bottomUp rule e) := by
  induction e using Expr.childInduction with
  | step e ih =>
    rw [bottomUp_eq]
    refine (FailsOnly.mapM ih).bind fun cs => ?_
    exact (hrule _).bind fun result => .ok _

theorem Promotion.failsOnly_promoteSource (source : Expr) :
    FailsOnly FromOperator (promoteSource source) := by
  unfold promoteSource
  split
  · exact .ok _
  · exact failsOnly_callOperator _ _ _

theorem Promotion.failsOnly_rule (e : Expr) : FailsOnly FromOperator (rule e) := by
  unfold rule
  split
  · split
    · refine (failsOnly_promoteSource _).bind fun source => ?_
      dsimp only
      split
      · exact (failsOnly_callOperator _ _ _).bind fun call => .ok _
      · exact .ok _
    · exact .ok _
  · exact .ok _

theorem Membership.failsOnly_rule (e : Expr) : FailsOnly FromOperator (rule e) := by
  unfold rule
  split
  · split
    · split
      · exact (failsOnly_callOperator _ _ _).bind fun contains => .ok _
      · exact .ok _
    · exact .ok _
  · exact .ok _

theorem GroupJoin.failsOnly_rule (e : Expr) : FailsOnly FromOperator (rule e) := by
  unfold rule
  split
  · split
    · split
      · exact (failsOnly_callOperator _ _ _).bind fun join => .ok _
      · exact .ok _
    · exact .ok _
  · exact .ok _

theorem MemberPushdown.failsOnly_pickedFrom? (args : List Expr) :
    FailsOnly FromOperator (pickedFrom? args) := by
  unfold pickedFrom?
  split
  · exact .ok _
  · exact (failsOnly_callOperator _ _ _).map
  · exact .ok _

theorem MemberPushdown.failsOnly_rule (e : Expr) : FailsOnly FromOperator (rule e) := by
  unfold rule
  split
  · split
    · refine (failsOnly_pickedFrom? _).bind fun source => ?_
      split
      · exact .ok _
      · split
        · exact .ok _
        · refine (failsOnly_callOperator _ _ _).bind fun projected => ?_
          exact (failsOnly_callOperator _ _ _).bind fun picked => .ok _
    · exact .ok _
  · exact .ok _

theorem KeyComparison.failsOnly_entity (model : Model) (name : String) (node : Expr) :
    FailsOnly AtNode (entity model name node) := by
  unfold entity
  split
  · exact .ok _
  · exact .error (atNode_of_fields_eq_nil rfl node)

theorem KeyComparison.failsOnly_compareWithNull (model : Model) (mode : Mode) (name : String)
    (e other node : Expr) : FailsOnly AtNode (compareWithNull model mode name e other node) := by
  unfold compareWithNull
  split
  · exact (failsOnly_entity model name node).bind fun entity => .ok _
  · exact .error (atNode_of_fields_eq_nil rfl node)

theorem KeyComparison.failsOnly_compare (model : Model) (equal : Bool) (left right node : Expr) :
    FailsOnly AtNode (compare model equal left right node) := by
  unfold compare
  dsimp only
  split
  · split
    · exact .ok _
    · exact .ok _
  · -- Which of the operands have an entity decides what is compared.
    split
    · exact .ok _
    · split
      · exact (failsOnly_entity model _ node).bind fun entity => .ok _
      · exact .error (atNode_of_fields_eq_nil rfl node)
    · exact failsOnly_compareWithNull _ _ _ _ _ node
    · exact failsOnly_compareWithNull _ _ _ _ _ node

theorem KeyComparison.failsOnly_rule (model : Model) (e : Expr) :
    FailsOnly AtNode (rule model e) := by
  unfold rule
  split
  · exact failsOnly_compare _ _ _ _ _
  · exact failsOnly_compare _ _ _ _ _
  · exact .ok _

theorem Markers.failsOnly_note (marker : Marker) (arg : Option Expr) (node : Expr) :
    (note marker arg node).FailsOnly AtNode := by
  unfold note
  refine StateStep.failsOnly_get.bind fun m => ?_
  split
  · exact StateStep.failsOnly_modifyGet _
  · exact StateStep.failsOnly_throw (atNode_of_fields_eq_nil rfl node)

theorem Markers.failsOnly_strip (e : Expr) : (strip e).FailsOnly AtNode := by
  induction e using Expr.childInduction with
  | step e ih =>
    cases e with
    | call m receiver args type =>
      cases hm : Marker.of? m with
      | none =>
        rw [strip_call hm]
        exact .traverse ih
      | some marker =>
        cases args with
        | nil =>
          rw [strip_marker_nil hm]
          exact StateStep.failsOnly_throw (atNode_of_fields_eq_nil rfl _)
        | cons source rest =>
          rw [strip_marker hm]
          refine (ih source (by simp [Expr.children])).bind fun source' => ?_
          exact (failsOnly_note _ _ _).bind fun _ => StateStep.failsOnly_pure source'
    | _ =>
      rw [strip]
      · exact .traverse ih
      all_goals
        intros
        contradiction

/-- The induction is on the budget and then on the tree, as for everything about inlining. -/
theorem Inlining.failsOnly_inline (budget : Nat) (e : Expr) : FailsOnly AtNode (inline budget e) := by
  induction budget using Nat.strongRecOn generalizing e with
  | ind budget ihBudget =>
    induction e using Expr.childInduction with
    | step e ih =>
      cases e with
      | invoke callee args type =>
        rw [inline.eq_def]
        dsimp only
        have hcallee : FailsOnly AtNode
            (if (knownLambda? callee).isSome then pure callee else inline budget callee) := by
          split
          · exact .ok _
          · exact ih callee (by simp [Expr.children])
        refine hcallee.bind fun callee' => ?_
        split
        · exact .error (atNode_of_fields_eq_nil rfl _)
        · split
          · exact .error (atNode_of_fields_eq_nil rfl _)
          · cases budget with
            | zero => exact .error (atNode_of_fields_eq_nil rfl _)
            | succ rest => exact ihBudget rest (Nat.lt_succ_self rest) _
      | _ =>
        rw [inline]
        · rw [Expr.traverse_eq]
          exact .map (.mapM ih)
        all_goals
          intros
          contradiction

/-- What an expansion or a resolution may fail with: it names the node, or it is an error of the
program. -/
def AtNodeOrInternal (f : Failure) : Prop := f.AtNode ∨ f.Internal

theorem failsOnly_withChildren_step (e : Expr) (cs : List Expr) :
    (StateStep.ofExcept (e.withChildren cs) : StateStep σ Expr).FailsOnly AtNodeOrInternal :=
  StateStep.failsOnly_ofExcept ((failsOnly_withChildren e cs).mono fun _ => .inr)

namespace Navigation

theorem failsOnly_property (row : Expr) (entity : Entity) (node : Expr) (name : String) :
    FailsOnly AtNode (property row entity node name) := by
  unfold property
  split
  · exact .ok _
  · exact .error (atNode_of_fields_eq_nil rfl node)

theorem failsOnly_keyOf (row : Expr) (entity : Entity) (node : Expr)
    (columns : List (String × String)) : FailsOnly AtNode (keyOf row entity node columns) := by
  unfold keyOf
  split
  · exact failsOnly_property _ _ _ _
  · refine FailsOnly.bind ?_ fun members => .ok _
    exact .mapM fun c _ => (failsOnly_property _ _ _ _).bind fun _ => .ok _

theorem failsOnly_target (model : Model) (n : QueryLowering.Navigation) (node : Expr) :
    FailsOnly AtNode (target model n node) := by
  unfold target
  split
  · exact .ok _
  · exact .error (atNode_of_fields_eq_nil rfl node)

theorem failsOnly_joinParts (model : Model) (s : State) (key : SourceKey) (declaring : Entity)
    (n : QueryLowering.Navigation) (node : Expr) :
    FailsOnly AtNode (joinParts model s key declaring n node) := by
  have hanchor : FailsOnly AtNode (anchorParam s key node) := by
    unfold anchorParam
    split
    · exact .error (atNode_of_fields_eq_nil rfl node)
    · split
      · exact .error (atNode_of_fields_eq_nil rfl node)
      · exact .ok _
  unfold joinParts
  refine (failsOnly_target model n node).bind fun target => ?_
  refine hanchor.bind fun anchor => ?_
  refine (failsOnly_keyOf _ _ _ _).bind fun outerKey => ?_
  exact (failsOnly_keyOf _ _ _ _).bind fun innerKey => .ok _

/-- The filter over an entity set is an operator call that never fails. -/
theorem callOperator_where_entitySet (entity : String) (p : Param) (test : Expr) :
    ∃ r, callOperator Family.deferred.owner "Where"
      [.entitySet entity, .quote (.lambda [p] test)] = .ok r := ⟨_, rfl⟩

theorem failsOnly_expandCollection (model : Model) (owner : Expr) (declaring : Entity)
    (n : QueryLowering.Navigation) (node : Expr) :
    FailsOnly AtNode (expandCollection model owner declaring n node) := by
  unfold expandCollection
  refine (failsOnly_target model n node).bind fun target => ?_
  refine FailsOnly.bind (.mapM fun c _ => ?_) fun tests => ?_
  · refine (failsOnly_property _ _ _ _).bind fun left => ?_
    exact (failsOnly_property _ _ _ _).bind fun right => .ok _
  · split
    · obtain ⟨r, hr⟩ := callOperator_where_entitySet target.name _ _
      exact .of_eq_ok hr
    · exact .error (atNode_of_fields_eq_nil rfl node)

theorem failsOnly_expandMember (model : Model) (Γ : Scope) (row : Expr) (name : String)
    (type : DataType) : (expandMember model Γ row name type).FailsOnly AtNode := by
  unfold expandMember
  dsimp only
  split
  · exact StateStep.failsOnly_pure _
  · split
    · exact StateStep.failsOnly_pure _
    · split
      · unfold expandReference
        refine StateStep.failsOnly_get.bind fun x => ?_
        split
        · exact StateStep.failsOnly_pure _
        · refine (StateStep.failsOnly_ofExcept (failsOnly_joinParts _ _ _ _ _ _)).bind fun parts => ?_
          exact (StateStep.failsOnly_modifyGet _).bind fun a => StateStep.failsOnly_pure _
      · exact StateStep.failsOnly_pure _
      · exact StateStep.failsOnly_ofExcept (failsOnly_expandCollection _ _ _ _ _)

theorem failsOnly_asSource (p : Expr × Option SourceKey) : (asSource p).FailsOnly F := by
  unfold asSource
  split
  · exact StateStep.failsOnly_pure _
  · exact (StateStep.failsOnly_modifyGet _).bind fun key => StateStep.failsOnly_pure _

theorem failsOnly_resultKey (name : String) (first : Option SourceKey) (e : Expr) :
    (resultKey name first e).FailsOnly F := by
  unfold resultKey
  split
  · exact StateStep.failsOnly_pure _
  · split
    · exact (StateStep.failsOnly_modifyGet _).map
    · exact StateStep.failsOnly_pure _

/-- A call is not rebuilt if it has a receiver that the arguments leave out. -/
theorem failsOnly_finish (call : Expr) (name : String) (args : List Expr)
    (first : Option SourceKey) :
    (rebuild.finish call name args first).FailsOnly AtNodeOrInternal := by
  unfold rebuild.finish
  refine (failsOnly_withChildren_step call args).bind fun e => ?_
  exact (failsOnly_resultKey name first e).bind fun key => StateStep.failsOnly_pure _

theorem failsOnly_rebuild (call : Expr) (name : String) (args : List Expr)
    (first : Option SourceKey) : (rebuild call name args first).FailsOnly AtNodeOrInternal := by
  unfold rebuild
  split
  · split
    · exact StateStep.failsOnly_pure _
    · exact failsOnly_finish call name _ first
  · exact failsOnly_finish call name _ first

/-- An operator call fails where its arguments do, or where it is rebuilt. -/
theorem failsOnly_operator {model : Model} {Γ : Scope} {bound : Nat → Option SourceKey} {m : Method}
    {receiver : Option Expr} {args : List Expr} {type : DataType}
    (hop : (Operator.findFor? m args).isSome = true)
    (hargs : ∀ a ∈ args, ∀ Γ bound, (expand model Γ bound a).FailsOnly AtNodeOrInternal) :
    (expand model Γ bound (.call m receiver args type)).FailsOnly AtNodeOrInternal := by
  rw [expand_operator hop]
  refine StateStep.FailsOnly.bind (.mapM fun a ha => ?_) fun sources => ?_
  · unfold expandSource
    split
    · refine (hargs a ha _ _).bind fun p => ?_
      exact (failsOnly_asSource p).bind fun _ => StateStep.failsOnly_pure _
    · exact StateStep.failsOnly_pure _
  refine StateStep.FailsOnly.bind (.mapM fun a ha => ?_) fun args' => ?_
  · unfold expandArg
    split
    · exact StateStep.failsOnly_pure _
    · have hmem := (List.of_mem_zip (List.fst_mem_of_mem_zipIdx ha)).1
      exact (hargs _ hmem _ _).bind fun _ => StateStep.failsOnly_pure _
  refine StateStep.FailsOnly.bind (.mapM fun a _ => ?_) fun args'' => failsOnly_rebuild _ _ _ _
  unfold attachSource
  split
  · exact StateStep.failsOnly_modifyGet _
  · exact StateStep.failsOnly_pure _

theorem failsOnly_expand (model : Model) (Γ : Scope) (bound : Nat → Option SourceKey) (e : Expr) :
    (expand model Γ bound e).FailsOnly AtNodeOrInternal := by
  induction e using Expr.childInduction generalizing Γ bound with
  | step e ih =>
    have htraverse : ∀ Γ, (e.traverse fun c _ =>
        Prod.fst <$> expand model Γ (fun _ => none) c).FailsOnly AtNodeOrInternal :=
      fun Γ => .traverse fun c hc => (ih c hc Γ _).map
    cases e with
    | call m receiver args type =>
      cases hop : (Operator.findFor? m args).isSome with
      | true => exact failsOnly_operator hop fun a ha => ih a (List.mem_append_right _ ha)
      | false =>
        rw [expand_call hop]
        exact (htraverse Γ).bind fun e => StateStep.failsOnly_pure _
    | quote inner =>
      rw [expand]
      exact (ih inner List.mem_cons_self _ _).bind fun _ => StateStep.failsOnly_pure _
    | lambda params body =>
      rw [expand]
      exact (ih body List.mem_cons_self _ _).bind fun _ => StateStep.failsOnly_pure _
    | member row name type =>
      rw [expand]
      refine (ih row List.mem_cons_self _ _).bind fun row' => ?_
      refine StateStep.FailsOnly.bind (fun s => ?_) fun _ => StateStep.failsOnly_pure _
      exact (failsOnly_expandMember model Γ row'.1 name type s).mono fun _ => .inl
    | _ =>
      rw [expand]
      · exact (htraverse Γ).bind fun _ => StateStep.failsOnly_pure _
      all_goals
        intros
        contradiction

theorem failsOnly_run (model : Model) (e : Expr) : (run model e).FailsOnly AtNodeOrInternal := by
  intro s
  have hexpand := failsOnly_expand model [] (fun _ => none) e { state := s }
  rw [run_run]
  generalize (expand model [] (fun _ => none) e).run.run { state := s } = result at hexpand ⊢
  rcases result with ⟨f | p, x⟩
  · exact .error (hexpand f rfl)
  · dsimp only
    split
    · exact .ok _
    · -- A join that was never attached is reported with its alias and its navigation.
      exact .error (.inr ⟨rfl, by simp [internalError, fieldNames, passField]⟩)

end Navigation

namespace DatabaseFunction

/-- A function that is not found is reported by its candidates and at its call. -/
theorem failsOnly_resolveCall (set : FunctionSet) (position : Position) (args : List Expr)
    (node : Expr) : (resolveCall set position args node).FailsOnly AtNodeOrInternal := by
  have hset : FailsOnly (fun f => passField ∉ f.fieldNames) (set.resolve (args.map Expr.type)) := by
    unfold FunctionSet.resolve
    split
    · exact .ok _
    · split
      · exact .error (by simp [FunctionSet.unmatched, fieldNames, passField])
      · exact .ok _
      · exact .error (by simp [FunctionSet.ambiguous, fieldNames])
  unfold resolveCall
  refine StateStep.FailsOnly.bind (StateStep.failsOnly_ofExcept ?_) fun f => ?_
  · exact hset.mapError fun f hf => .inl (.of_unnamed hf node)
  · split
    · exact StateStep.failsOnly_pure _
    · split
      · exact (StateStep.failsOnly_modifyGet _).bind fun a => StateStep.failsOnly_pure _
      · exact StateStep.failsOnly_throw (.inl (atNode_of_fields_eq_nil rfl node))

theorem failsOnly_resolve (catalog : Catalog) (position : Position) (e : Expr) :
    (resolve catalog position e).FailsOnly AtNodeOrInternal := by
  induction e using Expr.childInduction generalizing position with
  | step e ih =>
    cases e with
    | call m receiver args type =>
      have harg : ∀ a ∈ args, ∀ position, (resolve catalog position a).FailsOnly AtNodeOrInternal :=
        fun a ha position => ih a (List.mem_append_right _ ha) position
      cases hfind : catalog.find? m with
      | some set =>
        rw [resolve_function hfind]
        refine StateStep.FailsOnly.bind (.mapM fun a ha => harg a ha _) fun args' => ?_
        exact failsOnly_resolveCall _ _ _ _
      | none =>
        cases hop : (Operator.findFor? m args).isSome with
        | true =>
          rw [resolve_operator hfind hop]
          refine StateStep.FailsOnly.bind (.mapM fun a ha => ?_) fun args' => ?_
          · exact harg a.1 (List.fst_mem_of_mem_zipIdx ha) _
          · exact failsOnly_withChildren_step _ _
        | false =>
          rw [resolve_call hfind hop]
          exact .traverse fun c hc => ih c hc _
    | quote inner =>
      rw [resolve]
      exact (ih inner List.mem_cons_self _).map
    | lambda params body =>
      rw [resolve]
      exact (ih body List.mem_cons_self _).map
    | _ =>
      rw [resolve]
      · exact .traverseIdx fun i c hc => ih c hc _
      all_goals
        intros
        contradiction

end DatabaseFunction

/-- What a pass may fail with. Four passes build operator calls of their own and fail where these do;
the removal of null guards never fails. -/
def Raises : Pass → Failure → Prop
  | promotion | membership | groupJoin | memberPushdown => FromOperator
  | markers | inlining | keyComparison => AtNode
  | nullGuard => fun _ => False
  | navigation | databaseFunction => AtNodeOrInternal

theorem failsOnly_run (ctx : Context) (p : Pass) (e : Expr) : (p.run ctx e).FailsOnly p.Raises := by
  cases p with
  | promotion =>
    exact StateStep.failsOnly_ofExcept (failsOnly_bottomUp Promotion.failsOnly_rule e)
  | markers => exact (Markers.failsOnly_strip e).zoom
  | inlining => exact StateStep.failsOnly_ofExcept (Inlining.failsOnly_inline _ e)
  | membership =>
    exact StateStep.failsOnly_ofExcept (failsOnly_bottomUp Membership.failsOnly_rule e)
  | groupJoin =>
    exact StateStep.failsOnly_ofExcept (failsOnly_bottomUp GroupJoin.failsOnly_rule e)
  | nullGuard => exact StateStep.failsOnly_pure _
  | keyComparison =>
    exact StateStep.failsOnly_ofExcept (failsOnly_bottomUp (KeyComparison.failsOnly_rule ctx.model) e)
  | memberPushdown =>
    exact StateStep.failsOnly_ofExcept (failsOnly_bottomUp MemberPushdown.failsOnly_rule e)
  | navigation => exact Navigation.failsOnly_run ctx.model e
  | databaseFunction => exact DatabaseFunction.failsOnly_resolve ctx.catalog .rows e

/-- No pass names itself, or another, in a failure. -/
theorem Raises.not_mem_passField {p : Pass} {f : Failure} (h : p.Raises f) :
    passField ∉ f.fieldNames := by
  cases p with
  | promotion | membership | groupJoin | memberPushdown => exact FromOperator.not_mem_passField h
  | markers | inlining | keyComparison => exact AtNode.pass h
  | nullGuard => exact h.elim
  | navigation | databaseFunction => exact h.elim AtNode.pass Internal.pass

/-- The passes that build operator calls of their own. -/
def callingOperators : List Pass := [promotion, membership, groupJoin, memberPushdown]

theorem Raises.fromOperator {p : Pass} {f : Failure} (hp : p ∈ callingOperators) (h : p.Raises f) :
    f.FromOperator := by
  cases p with
  | promotion | membership | groupJoin | memberPushdown => exact h
  | _ => simp [callingOperators] at hp

theorem Raises.atNode {p : Pass} {f : Failure} (hp : p ∉ callingOperators)
    (hkind : f.kind ≠ .internal) (h : p.Raises f) : f.AtNode := by
  cases p with
  | promotion | membership | groupJoin | memberPushdown => simp [callingOperators] at hp
  | markers | inlining | keyComparison => exact h
  | nullGuard => exact h.elim
  | navigation | databaseFunction => exact h.resolve_right fun hinternal => hkind hinternal.kind

end Pass

end QueryLowering
