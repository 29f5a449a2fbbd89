import QueryLowering.Expr.Lemmas
import QueryLowering.Pass
import QueryLowering.Proofs.Steps

/-!
How the passes treat a node: which nodes a local rule looks at and what it makes of them, and how the
passes that keep a scope or a state go through the children.
-/

namespace QueryLowering.Pass

section Rules

variable {n r : Expr}

/-- An in-memory operator over a query source is promoted with its source and its lambdas. -/
theorem Promotion.rule_eq_some (h : rule n = .ok (some r)) :
    ∃ m source rest type source', n = .call m none (source :: rest) type ∧
      m.owner = Family.inMemory.owner ∧ (Operator.findFor? m (source :: rest)).isSome = true ∧
      promoteSource source = .ok source' ∧
      callOperator Family.deferred.owner m.name (source' :: rest.map quoteLambda) = .ok r := by
  unfold rule at h
  split at h
  · rename_i m source rest type
    split at h
    · rename_i hfires
      obtain ⟨source', hsource', h⟩ := bind_eq_ok.mp h
      simp only at h
      split at h
      · obtain ⟨call, hcall, h⟩ := bind_eq_ok.mp h
        cases h
        exact ⟨m, source, rest, type, source', rfl, hfires.1, hfires.2.2, hsource', hcall⟩
      · cases h
    · cases h
  · cases h

/-- A quantifier over values becomes a test of membership, or the negation of one. -/
theorem Membership.rule_eq_some (h : rule n = .ok (some r)) :
    ∃ m receiver source predicate type op value contains,
      n = .call m receiver [source, predicate] type ∧
      quantified? m.name predicate = some (op, value) ∧
      callOperator m.owner "Contains" [source, value] = .ok contains ∧
      (r = contains ∨ r = .unary .not contains) := by
  unfold rule at h
  split at h
  · rename_i m receiver source predicate type
    split at h
    · split at h
      · rename_i op value hquantified
        obtain ⟨contains, hcontains, h⟩ := bind_eq_ok.mp h
        refine ⟨m, receiver, source, predicate, type, op, value, contains, rfl, hquantified,
          hcontains, ?_⟩
        rw [← Option.some.inj (Except.ok.inj h)]
        split
        · exact .inr rfl
        · exact .inl rfl
      · cases h
    · cases h
  · cases h

/-- A group join pairs the parameters of its result selector in an object. -/
theorem GroupJoin.exists_of_parts? {parts : Parts} (h : parts? n = some parts) :
    ∃ m receiver outer inner outerKey innerKey selector type group members,
      n = .call m receiver [outer, inner, outerKey, innerKey, selector] type ∧
      m.name = "GroupJoin" ∧
      selector.lambda? = some ([parts.outerParam, group], .object members) ∧
      memberNames? parts.outerParam group members = some (parts.outerMember, parts.groupMember) ∧
      parts.args = [outer, inner, outerKey, innerKey] := by
  unfold parts? at h
  split at h
  · rename_i m receiver outer inner outerKey innerKey selector type
    split at h
    · rename_i hname
      split at h
      · rename_i outerParam group members hlambda
        obtain ⟨names, hnames, rfl⟩ := Option.map_eq_some_iff.mp h
        exact ⟨m, receiver, outer, inner, outerKey, innerKey, selector, type, group, members, rfl,
          hname, hlambda, hnames, rfl⟩
      · cases h
    · cases h
  · cases h

/-- The selector of a flat join gives the inner row, or it is the one before it, in which the pair was
used for nothing but the outer row. -/
theorem GroupJoin.joinSelector?_eq_some {parts : Parts} {rest : List Expr}
    (h : joinSelector? parts rest = some r) :
    (∃ element, rest = [] ∧
      r = .lambda [parts.outerParam, ⟨"i", element⟩] (.param ⟨"i", element⟩)) ∨
    ∃ selector pair inner body, rest = [selector] ∧
      selector.lambda? = some ([pair, inner], body) ∧
      (Expr.substMember pair parts.outerMember (.param parts.outerParam) body).references pair = false ∧
      r = .lambda [parts.outerParam, inner]
        (Expr.substMember pair parts.outerMember (.param parts.outerParam) body) := by
  unfold joinSelector? at h
  split at h
  · split at h
    · obtain ⟨element, -, rfl⟩ := Option.map_eq_some_iff.mp h
      exact .inl ⟨element, rfl, rfl⟩
    · cases h
  · rename_i selector
    split at h
    · rename_i pair inner body hlambda
      simp only at h
      split at h
      · cases h
      · rename_i hpair
        cases h
        exact .inr ⟨selector, pair, inner, body, rfl, hlambda, by simpa using hpair, rfl⟩
    · cases h
  · cases h

/-- A flat join takes the arguments of the group join, with a selector of its own as the last. -/
theorem GroupJoin.flatJoin?_eq_some {family : Family} {source collection : Expr}
    {rest args : List Expr} {name : String}
    (h : flatJoin? family source collection rest = some (name, args)) :
    ∃ parts leftOuter selector, parts? source = some parts ∧
      unpacksGroup? collection parts.groupMember = some leftOuter ∧
      ¬ (leftOuter = true ∧ family = .inMemory) ∧ joinSelector? parts rest = some selector ∧
      name = (if leftOuter then "LeftJoin" else "Join") ∧
      args = parts.args ++ [selectorFor family selector] := by
  unfold flatJoin? at h
  obtain ⟨parts, hparts, h⟩ := Option.bind_eq_some_iff.mp h
  obtain ⟨leftOuter, hunpacks, h⟩ := Option.bind_eq_some_iff.mp h
  split at h
  · cases h
  · rename_i hfamily
    obtain ⟨selector, hselector, h⟩ := Option.bind_eq_some_iff.mp h
    cases h
    exact ⟨parts, leftOuter, selector, hparts, hunpacks, hfamily, hselector, rfl, rfl⟩

/-- The unpacking of a group join becomes a flat join. -/
theorem GroupJoin.rule_eq_some (h : rule n = .ok (some r)) :
    ∃ m receiver source collection rest type family name args,
      n = .call m receiver (source :: collection :: rest) type ∧ m.name = "SelectMany" ∧
      flatJoin? family source collection rest = some (name, args) ∧
      callOperator m.owner name args = .ok r := by
  unfold rule at h
  split at h
  · rename_i m receiver source collection rest type
    split at h
    · rename_i hname
      split at h
      · rename_i name args hflat
        obtain ⟨family, -, hflat⟩ := Option.bind_eq_some_iff.mp hflat
        obtain ⟨call, hcall, h⟩ := bind_eq_ok.mp h
        cases h
        exact ⟨m, receiver, source, collection, rest, type, family, name, args, rfl, hname, hflat,
          hcall⟩
      · cases h
    · cases h
  · cases h

/-- A comparison for equality or inequality becomes what its operands say. -/
theorem KeyComparison.rule_eq_some {model : Model} (h : rule model n = .ok (some r)) :
    ∃ equal left right, n = .binary (Mode.of equal).compare left right ∧
      compare model equal left right n = .ok (some r) := by
  unfold rule at h
  split at h
  · rename_i left right
    exact ⟨true, left, right, rfl, h⟩
  · rename_i left right
    exact ⟨false, left, right, rfl, h⟩
  · cases h

/-- A deferred projection has a lambda as its selector. -/
theorem MemberPushdown.projection?_eq_some {source body : Expr} {params : List Param}
    (h : projection? n = some (source, params, body)) :
    ∃ m receiver selector type, n = .call m receiver [source, selector] type ∧
      m.owner = Family.deferred.owner ∧ m.name = "Select" ∧
      selector.lambda? = some (params, body) := by
  unfold projection? at h
  split at h
  · rename_i m receiver source' selector type
    split at h
    · rename_i hselect
      obtain ⟨⟨params', body'⟩, hlambda, hparts⟩ := Option.map_eq_some_iff.mp h
      cases hparts
      exact ⟨m, receiver, selector, type, rfl, hselect.1, hselect.2, hlambda⟩
    · cases h
  · cases h

/-- The member is read off the body of the projection that there is, or off the rows. -/
theorem MemberPushdown.projectionArgs?_eq_some {source : Expr} {name : String} {type : DataType}
    {args : List Expr} (h : projectionArgs? source name type = some args) :
    (∃ inner params body, projection? source = some (inner, params, body) ∧
      args = [inner, .quote (.lambda params (access body name type))]) ∨
    projection? source = none ∧ ∃ element, source.type.element? = some element ∧
      args = [source, .quote (.lambda [⟨"x", element⟩] (access (.param ⟨"x", element⟩) name type))] := by
  unfold projectionArgs? at h
  split at h
  · rename_i inner params body hprojection
    cases h
    exact .inl ⟨inner, params, body, hprojection, rfl⟩
  · rename_i hnone
    obtain ⟨element, helement, rfl⟩ := Option.map_eq_some_iff.mp h
    exact .inr ⟨hnone, element, helement, rfl⟩

/-- A member of a picked row is picked from the projection to the member. -/
theorem MemberPushdown.rule_eq_some (h : rule n = .ok (some r)) :
    ∃ m receiver args callType name type source projection projected,
      n = .member (.call m receiver args callType) name type ∧ m.name ∈ Operator.elementPicking ∧
      pickedFrom? args = .ok (some source) ∧
      projectionArgs? source name type = some projection ∧
      callOperator Family.deferred.owner "Select" projection = .ok projected ∧
      callOperator Family.deferred.owner m.name [projected] = .ok r := by
  unfold rule at h
  split at h
  · rename_i m receiver args callType name type
    split at h
    · rename_i hpicks
      obtain ⟨source?, hpicked, h⟩ := bind_eq_ok.mp h
      cases source? with
      | none => cases h
      | some source =>
        simp only at h
        split at h
        · cases h
        · rename_i projection hprojection
          obtain ⟨projected, hprojected, h⟩ := bind_eq_ok.mp h
          obtain ⟨picked, hpicked', h⟩ := bind_eq_ok.mp h
          cases h
          exact ⟨m, receiver, args, callType, name, type, source, projection, projected, rfl,
            hpicks.2, hpicked, hprojection, hprojected, hpicked'⟩
    · cases h
  · cases h

end Rules

namespace Markers

variable {m : Method} {receiver : Option Expr} {type : DataType}

theorem strip_marker {marker : Marker} (hm : Marker.of? m = some marker) (source : Expr)
    (rest : List Expr) :
    strip (.call m receiver (source :: rest) type) = (do
      let source' ← strip source
      note marker rest.head? (.call m receiver (source :: rest) type)
      return source') := by
  rw [strip.eq_def]
  simp only [hm]

theorem strip_marker_nil {marker : Marker} (hm : Marker.of? m = some marker) :
    strip (.call m receiver [] type) = throw (missingSource (.call m receiver [] type)) := by
  rw [strip.eq_def]
  simp only [hm]

theorem strip_call (hm : Marker.of? m = none) (args : List Expr) :
    strip (.call m receiver args type) =
      (Expr.call m receiver args type).traverse fun c _ => strip c := by
  rw [strip.eq_def]
  simp only [hm]

/-- Nodes of other kinds are gone through. -/
theorem strip_eq_traverse {e : Expr} (h : e.kindName ≠ "MethodCall") :
    strip e = e.traverse fun c _ => strip c := by
  cases e with
  | call => exact absurd rfl h
  | _ =>
    rw [strip]
    all_goals
      intros
      contradiction

end Markers

namespace NullGuard

open QueryLowering.Expr

variable {model : Model} {Γ : Scope} {optional : Option Nat} {e : Expr}

/-- The scope of a child: parameters of a lambda are added, and the child of a call whose second
parameter takes missing rows is told so. -/
def inner : Scope × Option Nat → Expr → Nat → Scope × Option Nat
  | place, .quote _, _ => place
  | (Γ, optional), .lambda params _, _ => (Γ.bind params optional, none)
  | (Γ, _), e, i => (Γ, if optionalRowChild? e = some i then some 1 else none)

/-- Drops the guard that a node is, if it can be dropped. -/
def unguardNode (model : Model) (Γ : Scope) : Expr → Expr
  | .cond test whenTrue whenFalse type => unguard model Γ test whenTrue whenFalse type
  | e => e

theorem unguardNode_of_kindName (h : e.kindName ≠ "Conditional") : unguardNode model Γ e = e := by
  cases e with
  | cond => exact absurd rfl h
  | _ => rfl

/-- Guards are removed from the children, each in its scope, and then from the node. -/
theorem remove_eq : remove model Γ optional e =
    unguardNode model Γ (e.setChildren (e.children.zipIdx.map fun c =>
      remove model (inner (Γ, optional) e c.2).1 (inner (Γ, optional) e c.2).2 c.1)) := by
  cases e with
  | quote | lambda | cond =>
    rw [remove]
    rfl
  | _ =>
    rw [remove, mapChildrenIdx_eq]
    · rw [unguardNode_of_kindName (by rw [kindName_setChildren]; simp [kindName])]
      rfl
    all_goals
      intros
      contradiction

/-- A node that is no conditional keeps its place over the children that removal gives. -/
theorem remove_of_kindName (h : e.kindName ≠ "Conditional") :
    remove model Γ optional e = e.setChildren (e.children.zipIdx.map fun c =>
      remove model (inner (Γ, optional) e c.2).1 (inner (Γ, optional) e c.2).2 c.1) := by
  rw [remove_eq, unguardNode_of_kindName (by rwa [kindName_setChildren])]

/-- A conditional stays, or one of its branches does. -/
theorem unguard_cases (model : Model) (Γ : Scope) (test whenTrue whenFalse : Expr)
    (type : DataType) :
    unguard model Γ test whenTrue whenFalse type = .cond test whenTrue whenFalse type ∨
      unguard model Γ test whenTrue whenFalse type = whenTrue ∨
      unguard model Γ test whenTrue whenFalse type = whenFalse := by
  unfold unguard guarded?
  grind

/-- A conditional stays, or becomes a branch since what it guards is known not to be null. -/
theorem unguard_eq (model : Model) (Γ : Scope) (test whenTrue whenFalse : Expr)
    (type : DataType) :
    unguard model Γ test whenTrue whenFalse type = cond test whenTrue whenFalse type ∧
        (∀ checked value, guarded? test whenTrue whenFalse = some (checked, value) →
          nonNull model Γ checked = false) ∨
      ∃ checked value, guarded? test whenTrue whenFalse = some (checked, value) ∧
        nonNull model Γ checked = true ∧ (value = whenTrue ∨ value = whenFalse) ∧
        unguard model Γ test whenTrue whenFalse type = value := by
  have hvalue : ∀ checked value, guarded? test whenTrue whenFalse = some (checked, value) →
      value = whenTrue ∨ value = whenFalse := by
    unfold guarded?
    grind
  unfold unguard
  cases hguarded : guarded? test whenTrue whenFalse with
  | none =>
    refine .inl ⟨rfl, ?_⟩
    intro checked value h
    cases h
  | some g =>
    obtain ⟨checked, value⟩ := g
    cases hnonNull : nonNull model Γ checked with
    | true =>
      exact .inr ⟨checked, value, rfl, hnonNull, hvalue checked value hguarded, by simp [hnonNull]⟩
    | false =>
      refine .inl ⟨by simp [hnonNull], ?_⟩
      rintro _ _ ⟨⟩
      exact hnonNull

end NullGuard

namespace Navigation

/-- Expands an argument that is a source, and gives it a key. -/
def expandSource (model : Model) (Γ : Scope) (a : Expr) : Step (Option (Expr × SourceKey)) :=
  if (ArgShape.of a).isSource then do
    return some (← asSource (← expand model Γ (fun _ => none) a))
  else return none

/-- Expands an argument that has not been expanded as a source. -/
def expandArg (model : Model) (Γ : Scope) (operator : String) (keys : List SourceKey) (i : Nat)
    (a : Expr) : Option (Expr × SourceKey) → Step Expr
  | some (source, _) => return source
  | none => do return (← expand model Γ (argSources operator keys i a) a).1

/-- Attaches to a source the joins that wait for it. -/
def attachSource (a : Expr) : Option (Expr × SourceKey) → Step Expr
  | some (_, key) => attach key a
  | none => return a

theorem expand_operator {model : Model} {Γ : Scope} {bound : Nat → Option SourceKey} {m : Method}
    {receiver : Option Expr} {args : List Expr} {type : DataType}
    (h : (Operator.findFor? m args).isSome = true) :
    expand model Γ bound (.call m receiver args type) = (do
      let sources ← args.mapM (expandSource model Γ)
      let keys := sources.filterMap fun s => s.map (·.2)
      let args' ← (args.zip sources).zipIdx.mapM fun a =>
        expandArg model Γ m.name keys a.2 a.1.1 a.1.2
      let args'' ← (args'.zip sources).mapM fun a => attachSource a.1 a.2
      rebuild (.call m receiver args type) m.name args'' keys.head?) := by
  have hzip (sources : List (Option (Expr × SourceKey))) :
      (args.zip sources).zipIdx =
        (args.attach.zip sources).zipIdx.map fun a => ((a.1.1.1, a.1.2), a.2) := by
    conv => lhs; rw [← List.attach_map_subtype_val args, List.zip_map_left, List.zipIdx_map]
    rfl
  have hattach : args.mapM (expandSource model Γ) =
      args.attach.mapM fun a => expandSource model Γ a.1 := by
    conv => lhs; rw [← List.attach_map_subtype_val args, List.mapM_map]
    rfl
  rw [expand, if_pos h, hattach]
  refine bind_congr fun sources => ?_
  dsimp only
  rw [hzip, List.mapM_map]
  rfl

theorem expand_call {model : Model} {Γ : Scope} {bound : Nat → Option SourceKey} {m : Method}
    {receiver : Option Expr} {args : List Expr} {type : DataType}
    (h : (Operator.findFor? m args).isSome = false) :
    expand model Γ bound (.call m receiver args type) = (do
      let e ← (Expr.call m receiver args type).traverse fun c _ =>
        Prod.fst <$> expand model Γ (fun _ => none) c
      return (e, none)) := by
  rw [expand, if_neg (by simp [h])]

/-- Nodes of other kinds are expanded through their children. -/
theorem expand_eq_traverse {model : Model} {e : Expr} {Γ : Scope} {bound : Nat → Option SourceKey}
    (hcall : e.kindName ≠ "MethodCall") (hquote : e.kindName ≠ "Quote")
    (hlambda : e.kindName ≠ "Lambda") (hmember : e.kindName ≠ "Member") :
    expand model Γ bound e = (do
      return (← e.traverse fun c _ => Prod.fst <$> expand model Γ (fun _ => none) c, none)) := by
  cases e with
  | call => exact absurd rfl hcall
  | quote => exact absurd rfl hquote
  | lambda => exact absurd rfl hlambda
  | member => exact absurd rfl hmember
  | _ =>
    rw [expand]
    all_goals
      intros
      contradiction

section Parts

variable {model : Model} {s : State} {key : SourceKey} {declaring entity : Entity}
  {n : QueryLowering.Navigation} {row owner node r : Expr}

theorem property_eq_ok {name : String} (h : property row entity node name = .ok r) :
    ∃ p ∈ entity.properties, r = .member row p.name p.type := by
  unfold property at h
  split at h
  · rename_i p hp
    cases h
    exact ⟨p, List.mem_of_find?_eq_some hp, rfl⟩
  · cases h

/-- A key is made of properties of its row, of one at least if there are columns. -/
theorem keyOf_eq_ok {columns : List (String × String)} (h : keyOf row entity node columns = .ok r) :
    ∃ members : List (String × Expr), (columns ≠ [] → members ≠ []) ∧
      (∀ m ∈ members, ∃ p ∈ entity.properties, m.2 = .member row p.name p.type) ∧
      (r = .object members ∨ ∃ name, members = [(name, r)]) := by
  unfold keyOf at h
  split at h
  · rename_i name column
    obtain ⟨p, hp, rfl⟩ := property_eq_ok h
    refine ⟨[(name, .member row p.name p.type)], fun _ => List.cons_ne_nil _ _, ?_, .inr ⟨name, rfl⟩⟩
    exact List.forall_mem_singleton.mpr ⟨p, hp, rfl⟩
  · obtain ⟨members, hmembers, h⟩ := bind_eq_ok.mp h
    cases h
    have hall := mapM_eq_ok.mp hmembers
    refine ⟨members, fun hcolumns hnil => ?_, ?_, .inl rfl⟩
    · rw [hnil] at hall
      exact hcolumns (List.forall₂_nil_right_iff.mp hall)
    · refine forall_mem_of_forall₂ hall fun c _ m hm => ?_
      obtain ⟨x, hx, hm⟩ := bind_eq_ok.mp hm
      cases hm
      exact property_eq_ok hx

theorem target_eq_ok_iff :
    target model n node = .ok entity ↔ model.entity? n.target = some entity := by
  unfold target
  cases model.entity? n.target with
  | none => simp
  | some found => simp

theorem anchorParam_eq_ok_iff {anchor : SourceKey} {p : Param} :
    anchorParam s key node = .ok (anchor, p) ↔
      ∃ element, s.anchor? key = some anchor ∧ s.rootType? anchor = some element ∧
        p = ⟨"r", element⟩ := by
  unfold anchorParam
  cases s.anchor? key with
  | none => simp
  | some found =>
    simp only [Option.some.injEq]
    cases hroot : s.rootType? found with
    | none =>
      constructor
      · intro h
        cases h
      · rintro ⟨element, rfl, helement, -⟩
        rw [hroot] at helement
        cases helement
    | some element =>
      constructor
      · intro h
        cases h
        exact ⟨element, rfl, hroot, rfl⟩
      · rintro ⟨element', rfl, helement, rfl⟩
        rw [hroot] at helement
        cases helement
        rfl

/-- What a join is made of: its target, the root below which it lies, and the keys on both sides. -/
theorem joinParts_eq_ok_iff {parts : JoinParts} :
    joinParts model s key declaring n node = .ok parts ↔
      ∃ element outerKey innerKey, model.entity? n.target = some parts.target ∧
        s.anchor? key = some parts.anchor ∧ s.rootType? parts.anchor = some element ∧
        keyOf (startRow key ⟨"r", element⟩ declaring) declaring node (sourceColumns n) =
          .ok outerKey ∧
        keyOf (.param ⟨"i", .entity parts.target.name⟩) parts.target node (targetColumns n) =
          .ok innerKey ∧
        parts.outerKey = .lambda [⟨"r", element⟩] outerKey ∧
        parts.innerKey = .lambda [⟨"i", .entity parts.target.name⟩] innerKey := by
  unfold joinParts
  simp only [bind_eq_ok, target_eq_ok_iff]
  constructor
  · rintro ⟨entity, hentity, ⟨found, r⟩, hfound, outerKey, houter, innerKey, hinner, h⟩
    obtain ⟨element, hanchor, hroot, rfl⟩ := anchorParam_eq_ok_iff.mp hfound
    cases h
    exact ⟨element, outerKey, innerKey, hentity, hanchor, hroot, houter, hinner, rfl, rfl⟩
  · rintro ⟨element, outerKey, innerKey, hentity, hanchor, hroot, houter, hinner, ho, hi⟩
    refine ⟨parts.target, hentity, (parts.anchor, ⟨"r", element⟩),
      anchorParam_eq_ok_iff.mpr ⟨element, hanchor, hroot, rfl⟩, outerKey, houter, innerKey, hinner, ?_⟩
    rw [← ho, ← hi]
    rfl

/-- The rows of a collection are those of the target that pass a series of comparisons, each of which
reads one column off the target and one off the owner. -/
theorem expandCollection_eq_ok (h : expandCollection model owner declaring n node = .ok r) :
    ∃ tests test, Expr.foldBinary? .and tests = some test ∧
      (∀ t ∈ tests, ∃ a b : Property, t = .binary .eq
        (.member (.param ⟨"e", .entity n.target⟩) a.name a.type) (.member owner b.name b.type)) ∧
      callOperator Family.deferred.owner "Where"
        [.entitySet n.target, .quote (.lambda [⟨"e", .entity n.target⟩] test)] = .ok r := by
  unfold expandCollection at h
  obtain ⟨entity, hentity, h⟩ := bind_eq_ok.mp h
  -- An entity type is found under its own name.
  have hname : entity.name = n.target := by
    simpa using List.find?_some (target_eq_ok_iff.mp hentity)
  rw [hname] at h
  obtain ⟨tests, htests, h⟩ := bind_eq_ok.mp h
  split at h
  · rename_i test htest
    refine ⟨tests, test, htest, ?_, h⟩
    refine forall_mem_of_forall₂ (mapM_eq_ok.mp htests) fun c _ t ht => ?_
    obtain ⟨left, hleft, ht⟩ := bind_eq_ok.mp ht
    obtain ⟨right, hright, ht⟩ := bind_eq_ok.mp ht
    cases ht
    obtain ⟨a, -, rfl⟩ := property_eq_ok hleft
    obtain ⟨b, -, rfl⟩ := property_eq_ok hright
    exact ⟨a, b, rfl⟩
  · cases h

end Parts

end Navigation

namespace DatabaseFunction

variable {catalog : Catalog} {position : Position} {m : Method} {receiver : Option Expr}
  {args : List Expr} {type : DataType}

theorem resolve_function {set : FunctionSet} (h : catalog.find? m = some set) :
    resolve catalog position (.call m receiver args type) = (do
      let args' ← args.mapM (resolve catalog .value)
      resolveCall set position args' (.call m receiver args type)) := by
  rw [resolve]
  simp only [h, List.mapM_subtype, List.unattach_attach]

theorem resolve_operator (h : catalog.find? m = none)
    (hop : (Operator.findFor? m args).isSome = true) :
    resolve catalog position (.call m receiver args type) = (do
      let args' ← args.zipIdx.mapM fun a => resolve catalog (argPosition m.name a.2 a.1) a.1
      StateStep.ofExcept ((Expr.call m receiver args type).withChildren args')) := by
  have hzip : args.zipIdx = args.attach.zipIdx.map fun a => (a.1.1, a.2) := by
    conv => lhs; rw [← List.attach_map_subtype_val args, List.zipIdx_map]
    rfl
  rw [resolve]
  simp only [h, hop, ↓reduceIte, hzip, List.mapM_map]
  rfl

theorem resolve_call (h : catalog.find? m = none)
    (hop : (Operator.findFor? m args).isSome = false) :
    resolve catalog position (.call m receiver args type) =
      (Expr.call m receiver args type).traverse fun c _ => resolve catalog .value c := by
  rw [resolve]
  simp only [h, hop, Bool.false_eq_true, ↓reduceIte]

/-- Nodes of other kinds are resolved child by child, each child in its own position. -/
theorem resolve_eq_traverseIdx {e : Expr} (hcall : e.kindName ≠ "MethodCall")
    (hquote : e.kindName ≠ "Quote") (hlambda : e.kindName ≠ "Lambda") :
    resolve catalog position e =
      e.traverseIdx fun i c _ => resolve catalog (childPosition e i) c := by
  cases e with
  | call => exact absurd rfl hcall
  | quote => exact absurd rfl hquote
  | lambda => exact absurd rfl hlambda
  | _ =>
    rw [resolve]
    all_goals
      intros
      contradiction

end DatabaseFunction

end QueryLowering.Pass
