import QueryLowering.Proofs.RowSpine
import QueryLowering.Proofs.Settled.Rules

/-!
What promotion makes of a tree. No operator in memory is left that has a query as its source and a
deferred counterpart, so a second promotion changes nothing. A promoted call is typed as the call in
memory was, except that a new sequence becomes a deferred query, and has the same type arguments.
-/

namespace QueryLowering

open QueryLowering.Expr

/-- The number of parameters of a lambda, quoted or not. -/
def ArgShape.arity? : ArgShape → Option Nat
  | lambda n | quotedLambda n => some n
  | _ => none

theorem ArgShape.arity?_of_accepts {want arg : ArgShape} (h : want.accepts arg = true) :
    want.arity? = arg.arity? := by
  unfold accepts at h
  simp only [Bool.or_eq_true, Bool.and_eq_true, beq_iff_eq] at h
  rcases h with rfl | ⟨rfl, rfl⟩ <;> rfl

theorem ArgShape.arity?_of (e : Expr) :
    (ArgShape.of e).arity? = e.lambda?.map fun l => l.1.length := by
  unfold ArgShape.of
  split
  · rfl
  · rfl
  · rename_i inner hinner
    cases inner with
    | lambda params body => exact absurd rfl (hinner params body)
    | _ => rfl
  · rename_i hlambda hquoted hquote
    have hnone : e.lambda? = none := by
      cases e with
      | lambda params body => exact absurd rfl (hlambda params body)
      | quote inner => exact absurd rfl (hquote inner)
      | _ => rfl
    rw [hnone]
    split <;> rfl

/-- Does an operator with this rule put together a new sequence? -/
def ResultRule.makesSequence : ResultRule → Bool
  | source | projection _ | flatten _ => true
  | _ => false

/-- The types of an operator in memory and of its deferred counterpart: what is a new sequence in
memory is a query if deferred, and all else is the same. -/
inductive DeferredType (rule : ResultRule) : DataType → DataType → Prop
  | sequence {t : DataType} : rule.makesSequence = true →
      DeferredType rule (.sequence t) (.queryable t)
  | other {t : DataType} : rule.makesSequence = false → DeferredType rule t t

namespace Operator

/-- Overloads of one name, in either family, are told apart by which parameters are lambdas. -/
theorem result_eq_of_arities : ∀ op ∈ all, ∀ op' ∈ all, op.name = op'.name →
    op.params.map ArgShape.arity? = op'.params.map ArgShape.arity? → op.result = op'.result := by
  decide +kernel

theorem result_ne_passthrough : ∀ op ∈ all, op.family = .inMemory → op.result ≠ .passthrough := by
  decide

theorem arities_of_acceptsShapes {wants shapes : List ArgShape}
    (h : acceptsShapes wants shapes = true) :
    wants.map ArgShape.arity? = shapes.map ArgShape.arity? := by
  rw [← List.forall₂_eq_eq_eq, List.forall₂_map_left_iff, List.forall₂_map_right_iff]
  exact (acceptsShapes_iff.mp h).imp fun _ _ => ArgShape.arity?_of_accepts

end Operator

/-- Two arguments that an operator treats alike: they have elements of one type, or parameters and
body of one lambda. -/
structure Alike (a b : Expr) : Prop where
  element : a.type.element? = b.type.element?
  lambda : a.lambda? = b.lambda?

section Alike

variable {args args' : List Expr} {op op' : Operator} (h : List.Forall₂ Alike args args')
include h

theorem filterMap_alike {α : Type} {f : Expr → Option α} (hf : ∀ a b, Alike a b → f a = f b) :
    args.filterMap f = args'.filterMap f := by
  induction h with
  | nil => rfl
  | cons hab _ ih => rw [List.filterMap_cons, List.filterMap_cons, hf _ _ hab, ih]

theorem operatorTypeArgs_alike : operatorTypeArgs args = operatorTypeArgs args' := by
  unfold operatorTypeArgs
  rw [filterMap_alike h fun _ _ hab => hab.element,
    filterMap_alike h fun _ _ hab => by rw [hab.lambda]]

theorem map_arity?_alike :
    (args.map ArgShape.of).map ArgShape.arity? = (args'.map ArgShape.of).map ArgShape.arity? := by
  rw [List.map_map, List.map_map, ← List.forall₂_eq_eq_eq, List.forall₂_map_left_iff,
    List.forall₂_map_right_iff]
  refine h.imp fun a b hab => ?_
  rw [Function.comp_apply, Function.comp_apply, ArgShape.arity?_of, ArgShape.arity?_of, hab.lambda]

theorem sourceElement_alike (hname : op.name = op'.name) :
    op.sourceElement args = op'.sourceElement args' := by
  unfold Operator.sourceElement
  cases h with
  | nil => rw [hname]
  | cons hab _ => rw [List.head?_cons, List.head?_cons, Option.bind_some, Option.bind_some,
      hab.element, hname]

theorem lambdaResultAt_alike (hname : op.name = op'.name) (i : Nat) :
    op.lambdaResultAt args i = op'.lambdaResultAt args' i := by
  have hlambda : args[i]?.bind Expr.lambda? = args'[i]?.bind Expr.lambda? := by
    induction h generalizing i with
    | nil => rfl
    | cons hab _ ih =>
      cases i with
      | zero => exact hab.lambda
      | succ i => exact ih i
  unfold Operator.lambdaResultAt
  rw [hlambda, hname]

/-- Where a deferred operator gives a type, the one in memory with the same rule gives a type too,
and the two correspond. -/
theorem exists_resultType_of_deferred (hname : op.name = op'.name)
    (hresult : op.result = op'.result) (hfamily : op.family = .inMemory)
    (hfamily' : op'.family = .deferred)
    (hpass : op.result ≠ .passthrough) {new : DataType} (hnew : op'.resultType args' = .ok new) :
    ∃ old, op.resultType args = .ok old ∧ DeferredType op.result old new := by
  have hsource := sourceElement_alike h hname
  have hlambda := lambdaResultAt_alike h hname
  unfold Operator.resultType at hnew ⊢
  rw [← hresult, hfamily'] at hnew
  rw [hfamily]
  -- Each rule reads the source or one lambda, and these are alike in the two calls.
  cases hrule : op.result with
  | source =>
    rw [hrule] at hnew
    obtain ⟨t, ht, rfl⟩ := map_eq_ok.mp hnew
    exact ⟨.sequence t, map_eq_ok.mpr ⟨t, hsource.trans ht, rfl⟩, .sequence rfl⟩
  | projection i =>
    rw [hrule] at hnew
    obtain ⟨t, ht, rfl⟩ := map_eq_ok.mp hnew
    exact ⟨.sequence t, map_eq_ok.mpr ⟨t, (hlambda i).trans ht, rfl⟩, .sequence rfl⟩
  | flatten i =>
    rw [hrule] at hnew
    obtain ⟨t, ht, hnew⟩ := bind_eq_ok.mp hnew
    cases helement : t.element? with
    | none =>
      rw [helement] at hnew
      cases hnew
    | some element =>
      rw [helement] at hnew
      cases hnew
      refine ⟨.sequence element, bind_eq_ok.mpr ⟨t, (hlambda i).trans ht, ?_⟩, .sequence rfl⟩
      rw [helement]
      rfl
  | element =>
    rw [hrule] at hnew
    exact ⟨new, hsource.trans hnew, .other rfl⟩
  | lambdaResult i =>
    rw [hrule] at hnew
    exact ⟨new, (hlambda i).trans hnew, .other rfl⟩
  | boolean =>
    rw [hrule] at hnew
    exact ⟨new, hnew, .other rfl⟩
  | count =>
    rw [hrule] at hnew
    exact ⟨new, hnew, .other rfl⟩
  | asQueryable =>
    rw [hrule] at hnew
    obtain ⟨t, ht, rfl⟩ := map_eq_ok.mp hnew
    exact ⟨.queryable t, map_eq_ok.mpr ⟨t, hsource.trans ht, rfl⟩, .other rfl⟩
  | passthrough => exact absurd hrule hpass

end Alike

namespace Pass.Promotion

variable {e n r source source' : Expr} {rest : List Expr}

/-- A source that the database can supply: a deferred query, or a collection that a member leads
to. -/
inductive QuerySource : Expr → Prop
  | deferred {source : Expr} {t : DataType} : source.type = .queryable t → QuerySource source
  | member {target : Expr} {name : String} {t : DataType} :
      QuerySource (.member target name (.sequence t))

theorem isQuerySource_iff : isQuerySource source = true ↔ QuerySource source := by
  have hdeferred : source.type.isQueryable = true ↔ ∃ t, source.type = .queryable t := by
    cases source.type <;> simp [DataType.isQueryable]
  unfold isQuerySource
  rw [Bool.or_eq_true, hdeferred]
  constructor
  · rintro (⟨t, ht⟩ | hmember)
    · exact .deferred ht
    · cases source with
      | member target name type =>
        cases type with
        | sequence t => exact .member
        | queryable t => exact .deferred rfl
        | _ => cases hmember
      | _ => cases hmember
  · intro h
    cases h with
    | deferred ht => exact .inl ⟨_, ht⟩
    | member => exact .inr rfl

/-- A query as it is, and a collection converted to a query. -/
def deferredSource (source : Expr) : Expr :=
  match source.type with
  | .sequence t => .call ⟨Family.deferred.owner, "AsQueryable", [t]⟩ none [source] (.queryable t)
  | _ => source

theorem promoteSource_eq (h : QuerySource source) :
    promoteSource source = .ok (deferredSource source) := by
  unfold promoteSource deferredSource
  cases h with
  | deferred ht =>
    rw [ht]
    rfl
  | @member target name t =>
    have hfind : Operator.find? Family.deferred.owner "AsQueryable" [.sequence] =
        some ⟨.deferred, "AsQueryable", [.sequence], .asQueryable⟩ := by decide
    have hshape : [Expr.member target name (.sequence t)].map ArgShape.of = [.sequence] := rfl
    rw [if_neg (show (Expr.member target name (.sequence t)).type.isQueryable ≠ true from
      Bool.false_ne_true)]
    unfold callOperator
    simp only [hshape, hfind]
    rfl

theorem alike_deferredSource (h : QuerySource source) : Alike source (deferredSource source) := by
  unfold deferredSource
  cases h with
  | deferred ht =>
    rw [ht]
    exact ⟨rfl, rfl⟩
  | member => exact ⟨rfl, rfl⟩

theorem alike_quoteLambda (a : Expr) : Alike a (quoteLambda a) := by
  cases a <;> exact ⟨rfl, rfl⟩

/-- The arguments of the deferred call. -/
def deferredArgs (source : Expr) (rest : List Expr) : List Expr :=
  deferredSource source :: rest.map quoteLambda

theorem alike_deferredArgs (h : QuerySource source) :
    List.Forall₂ Alike (source :: rest) (deferredArgs source rest) :=
  .cons (alike_deferredSource h)
    (List.forall₂_map_right_iff.mpr (List.forall₂_same.mpr fun a _ => alike_quoteLambda a))

/-- A call of an operator in memory over a query, with a deferred operator for the converted
arguments. -/
inductive Promotable : Expr → Prop
  | mk {m : Method} {source : Expr} {rest : List Expr} {type : DataType} {op op' : Operator} :
      m.owner = Family.inMemory.owner → Operator.findFor? m (source :: rest) = some op →
      QuerySource source →
      Operator.find? Family.deferred.owner m.name ((deferredArgs source rest).map ArgShape.of) =
        some op' →
      Promotable (.call m none (source :: rest) type)

theorem rule_call (m : Method) (source : Expr) (rest : List Expr) (type : DataType) :
    rule (.call m none (source :: rest) type) =
      if m.owner = Family.inMemory.owner ∧ isQuerySource source = true ∧
          (Operator.findFor? m (source :: rest)).isSome = true then
        promoteSource source >>= fun source' =>
          if (Operator.find? Family.deferred.owner m.name
              ((source' :: rest.map quoteLambda).map ArgShape.of)).isSome = true then
            callOperator Family.deferred.owner m.name (source' :: rest.map quoteLambda) >>=
              fun call => .ok (some call)
          else .ok none
      else .ok none := rfl

theorem not_promotable_of_rule (h : rule n = .ok none) : ¬ Promotable n := by
  rintro ⟨howner, hop, hsource, hop'⟩
  rw [rule_call, if_pos ⟨howner, isQuerySource_iff.mpr hsource, Option.isSome_of_eq_some hop⟩] at h
  obtain ⟨source', hsource', h⟩ := bind_eq_ok.mp h
  rw [promoteSource_eq hsource] at hsource'
  cases hsource'
  rw [deferredArgs] at hop'
  rw [if_pos (Option.isSome_of_eq_some hop')] at h
  obtain ⟨call, -, h⟩ := bind_eq_ok.mp h
  cases h

/-- What the rule fires on, and the call that it puts in. -/
theorem promotable_of_rule (h : rule n = .ok (some r)) :
    ∃ m source rest type, n = .call m none (source :: rest) type ∧
      m.owner = Family.inMemory.owner ∧ (Operator.findFor? m (source :: rest)).isSome = true ∧
      QuerySource source ∧
      callOperator Family.deferred.owner m.name (deferredArgs source rest) = .ok r := by
  obtain ⟨m, source, rest, type, source', rfl, howner, hop, hpromote, hcall⟩ := rule_eq_some h
  have hsource : QuerySource source := by
    by_contra hnot
    rw [rule_call, if_neg fun hfires => hnot (isQuerySource_iff.mp hfires.2.1)] at h
    cases h
  rw [promoteSource_eq hsource] at hpromote
  cases hpromote
  exact ⟨m, source, rest, type, rfl, howner, hop, hsource, hcall⟩

theorem rule_of_deferred {m : Method} {receiver : Option Expr} {args : List Expr} {type : DataType}
    (h : m.owner = Family.deferred.owner) : rule (.call m receiver args type) = .ok none := by
  have hne : m.owner ≠ Family.inMemory.owner := by
    rw [h]
    decide
  unfold rule
  split
  · rename_i heq
    cases heq
    exact if_neg fun hfires => hne hfires.1
  · rfl

theorem everywhere_deferredSource (h : source.Everywhere fun x => rule x = .ok none) :
    (deferredSource source).Everywhere fun x => rule x = .ok none := by
  unfold deferredSource
  split
  · refine everywhere_iff.mpr ⟨rule_of_deferred rfl, fun c hc => ?_⟩
    cases List.mem_singleton.mp hc
    exact h
  · exact h

theorem everywhere_quoted {a : Expr} (h : a.Everywhere fun x => rule x = .ok none) :
    (quoteLambda a).Everywhere fun x => rule x = .ok none := by
  unfold quoteLambda
  split
  · refine everywhere_iff.mpr ⟨rfl, fun c hc => ?_⟩
    cases List.mem_singleton.mp hc
    exact h
  · exact h

/-- What is put around the parts of a call is deferred already. -/
theorem everywhere_none_of_rule
    (hn : ∀ c ∈ n.children, c.Everywhere fun x => rule x = .ok none) (h : rule n = .ok (some r)) :
    r.Everywhere fun x => rule x = .ok none := by
  obtain ⟨m, source, rest, type, rfl, -, -, -, hcall⟩ := promotable_of_rule h
  have hargs : ∀ c ∈ source :: rest, c.Everywhere fun x => rule x = .ok none := hn
  obtain ⟨op, type', -, -, rfl⟩ := callOperator_eq_ok hcall
  refine everywhere_iff.mpr ⟨rule_of_deferred rfl, fun c hc => ?_⟩
  rcases List.mem_cons.mp (show c ∈ deferredArgs source rest from hc) with rfl | hc
  · exact everywhere_deferredSource (hargs source List.mem_cons_self)
  · obtain ⟨a, ha, rfl⟩ := List.mem_map.mp hc
    exact everywhere_quoted (hargs a (List.mem_cons_of_mem _ ha))

/-- No node of a promoted tree can be promoted. -/
theorem everywhere_run (h : run e = .ok r) : r.Everywhere fun x => rule x = .ok none :=
  Rule.everywhere_none_of_bottomUp (fun _ _ => everywhere_none_of_rule) h

theorem settled_of_everywhere (h : r.Everywhere fun x => rule x = .ok none) : rule.Settled r :=
  Rule.settled_of_everywhere_none h

/-- A call of an operator in memory and the deferred call that takes its place. Both have the type
arguments that the operator in memory asks for. -/
inductive Promotes : Expr → Expr → Prop
  | mk {m : Method} {source : Expr} {rest : List Expr} {typeArgs : List DataType}
      {type old new : DataType} {op : Operator} :
      m.owner = Family.inMemory.owner → Operator.findFor? m (source :: rest) = some op →
      callOperator m.owner m.name (source :: rest) =
        .ok (.call ⟨m.owner, m.name, typeArgs⟩ none (source :: rest) old) →
      DeferredType op.result old new →
      Promotes (.call m none (source :: rest) type)
        (.call ⟨Family.deferred.owner, m.name, typeArgs⟩ none (deferredArgs source rest) new)

theorem promotes_of_rule (h : rule n = .ok (some r)) : Promotes n r := by
  obtain ⟨m, source, rest, type, rfl, howner, hfind, hsource, hcall⟩ := promotable_of_rule h
  obtain ⟨op, hop⟩ := Option.isSome_iff_exists.mp hfind
  obtain ⟨op', new, hop', hnew, rfl⟩ := callOperator_eq_ok hcall
  obtain ⟨hmem, hfamily, hname, haccepts⟩ := Operator.find?_eq_some hop
  obtain ⟨hmem', hfamily', hname', haccepts'⟩ := Operator.find?_eq_some hop'
  have halike : List.Forall₂ Alike (source :: rest) (deferredArgs source rest) :=
    alike_deferredArgs hsource
  -- Both overloads have lambdas of the same arities at the same places, so they have one rule.
  have hnames : op.name = op'.name := hname.trans hname'.symm
  have hresult : op.result = op'.result := by
    refine Operator.result_eq_of_arities op hmem op' hmem' hnames ?_
    rw [Operator.arities_of_acceptsShapes haccepts, Operator.arities_of_acceptsShapes haccepts']
    exact map_arity?_alike halike
  have hinMemory : op.family = .inMemory := Family.owner_injective (hfamily.trans howner)
  have hdeferred : op'.family = .deferred := Family.owner_injective hfamily'
  obtain ⟨old, hold, htypes⟩ := exists_resultType_of_deferred halike hnames hresult hinMemory
    hdeferred (Operator.result_ne_passthrough op hmem hinMemory) hnew
  rw [← operatorTypeArgs_alike halike]
  refine .mk howner hop ?_ htypes
  have hop : Operator.find? m.owner m.name ((source :: rest).map ArgShape.of) = some op := hop
  unfold callOperator
  simp only [hop]
  exact bind_eq_ok.mpr ⟨old, hold, rfl⟩

/-- Promotion leaves nothing to promote, so a second run changes nothing, and each call that it puts
in is typed as the call before it. -/
theorem run_leaves_nothing_promotable (h : run e = .ok r) :
    (∀ n ∈ r.nodes, ¬ Promotable n) ∧ run r = .ok r ∧
      ∀ n c, rule n = .ok (some c) → Promotes n c := by
  have hnone := everywhere_run h
  exact ⟨fun n hn => not_promotable_of_rule (hnone n hn),
    (settled_of_everywhere hnone).bottomUp_eq_self, fun _ _ => promotes_of_rule⟩

/-- The orders of a customer. -/
def ordersOf : Expr :=
  .member (.param ⟨"c", .entity "Customer"⟩) "Orders" (.sequence (.entity "Order"))

def isShipped : Expr :=
  .lambda [⟨"o", .entity "Order"⟩]
    (.binary .eq (.member (.param ⟨"o", .entity "Order"⟩) "Status" .utf8)
      (.const (.scalar (.utf8 "shipped")) .utf8))

/-- The orders that were shipped, put together in memory. -/
def shippedOf : Expr :=
  .call ⟨"Enumerable", "Where", [.entity "Order"]⟩ none [ordersOf, isShipped]
    (.sequence (.entity "Order"))

/-- The same as a query. -/
def shippedByQuery : Expr :=
  .call ⟨"Queryable", "Where", [.entity "Order", .boolean]⟩ none
    [.call ⟨"Queryable", "AsQueryable", [.entity "Order"]⟩ none [ordersOf]
      (.queryable (.entity "Order")), .quote isShipped] (.queryable (.entity "Order"))

/-- The outer call counts a sequence in memory until the inner one is promoted. -/
theorem run_leaves_nothing_of_shipped :
    run (.call ⟨"Enumerable", "Count", [.entity "Order"]⟩ none [shippedOf] .int32) =
        .ok (.call ⟨"Queryable", "Count", [.entity "Order"]⟩ none [shippedByQuery] .int32) ∧
      run (.call ⟨"Queryable", "Count", [.entity "Order"]⟩ none [shippedByQuery] .int32) =
        .ok (.call ⟨"Queryable", "Count", [.entity "Order"]⟩ none [shippedByQuery] .int32) ∧
      rule shippedOf = .ok (some shippedByQuery) ∧ Promotes shippedOf shippedByQuery := by
  have hrun : run (.call ⟨"Enumerable", "Count", [.entity "Order"]⟩ none [shippedOf] .int32) =
      .ok (.call ⟨"Queryable", "Count", [.entity "Order"]⟩ none [shippedByQuery] .int32) := by cbv
  have hrule : rule shippedOf = .ok (some shippedByQuery) := by cbv
  obtain ⟨-, hagain, htypes⟩ := run_leaves_nothing_promotable hrun
  exact ⟨hrun, hagain, hrule, htypes _ _ hrule⟩

end Pass.Promotion

end QueryLowering
