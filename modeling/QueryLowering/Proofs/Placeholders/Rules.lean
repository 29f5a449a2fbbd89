import QueryLowering.Proofs.Invocations
import QueryLowering.Proofs.Placeholders

/-!
Local rules and inlining do not tell a placeholder from what may be filled in for it. They look at
types and at the shapes of nodes other than leaves, and they compare parameters only with those that
lambdas bind; so on a clean tree and on the same tree filled in they agree.
-/

namespace QueryLowering

open QueryLowering.Expr Literals

variable {f : Param → Option Expr} {e : Expr}

/-- What a clean lambda, quoted or not, binds and holds. -/
theorem Expr.Clean.lambda? (he : e.Clean) {params : List Param} {body : Expr}
    (h : e.lambda? = some (params, body)) : (∀ p ∈ params, ¬ Reserved p.name) ∧ body.Clean := by
  unfold Expr.lambda? at h
  split at h
  · cases h
    exact clean_lambda.mp he
  · cases h
    exact clean_lambda.mp (clean_quote.mp he)
  · cases h

namespace Expr.StandIns

variable (hf : StandIns f)
include hf

/-- No tree becomes a parameter that is no placeholder. -/
theorem fill_eq_param_iff {p : Param} (hp : ¬ Reserved p.name) :
    e.fill f = param p ↔ e = param p := by
  constructor
  · intro h
    by_cases hparam : ∃ q, e = param q
    · obtain ⟨q, rfl⟩ := hparam
      rcases hf.fill_param_cases q with hq | ⟨-, ⟨v, -, hq⟩ | ⟨name, hname, hq⟩⟩
      · exact hq.symm.trans h
      · exact absurd (hq.symm.trans h) (by simp)
      · cases hq.symm.trans h
        exact absurd hname hp
    · exact absurd h (fill_ne_param (fun q hq => hparam ⟨q, hq⟩) p)
  · rintro rfl
    exact hf.fill_param_of_not_reserved hp

end Expr.StandIns

namespace Pass

variable (hf : StandIns f)

namespace Promotion

include hf

theorem isQuerySource_fill (e : Expr) : isQuerySource (e.fill f) = isQuerySource e := by
  cases e with
  | param p =>
    exact hf.of_fill_param (P := fun x => isQuerySource x = isQuerySource (param p))
      (fun _ => rfl) fun _ _ => rfl
  | _ =>
    unfold isQuerySource
    rw [hf.type_fill]
    simp

theorem agree_promoteSource (he : e.Clean) :
    Agree (Filled f) (promoteSource e) (promoteSource (e.fill f)) := by
  unfold promoteSource
  rw [hf.type_fill]
  split
  · exact .ok he.filled
  · have hargs : ∀ a ∈ [e], a.Clean := by simpa using he
    exact hf.agree_callOperator hargs

theorem quoteLambda_fill (e : Expr) : quoteLambda (e.fill f) = (quoteLambda e).fill f := by
  cases e with
  | param p => exact hf.of_fill_param (P := fun x => quoteLambda x = x) (fun _ => rfl) fun _ _ => rfl
  | _ => simp [quoteLambda]

omit hf in
theorem clean_quoteLambda (he : e.Clean) : (quoteLambda e).Clean := by
  unfold quoteLambda
  split
  · exact clean_quote.mpr he
  · exact he

theorem agree_rule (he : e.Clean) :
    Agree (Option.Rel (Filled f)) (rule e) (rule (e.fill f)) := by
  cases e with
  | call m receiver args type =>
    rcases receiver with _ | r
    · rcases args with _ | ⟨source, rest⟩
      · simpa [rule] using Agree.ok .none
      obtain ⟨hsource, hrest⟩ := List.forall_mem_cons.mp (clean_call.mp he).2
      have hfind := hf.findFor?_fill m (source :: rest)
      rw [List.map_cons] at hfind
      rw [fill_call, Option.map_none, List.map_cons, rule, rule, isQuerySource_fill hf, hfind]
      split
      · refine (agree_promoteSource hf hsource).bind fun s s' hs => ?_
        obtain ⟨hs, rfl⟩ := hs
        -- The converted arguments are filled in as the given ones are.
        have hargs : s.fill f :: (rest.map (fill f)).map quoteLambda =
            (s :: rest.map quoteLambda).map (fill f) := by
          simp only [List.map_cons, List.map_map, List.cons.injEq, true_and]
          exact List.map_congr_left fun a _ => quoteLambda_fill hf a
        have hclean : ∀ a ∈ s :: rest.map quoteLambda, a.Clean := by
          refine List.forall_mem_cons.mpr ⟨hs, List.forall_mem_map.mpr fun a ha => ?_⟩
          exact clean_quoteLambda (hrest a ha)
        simp only [hargs, hf.map_argShape_fill]
        split
        · exact (hf.agree_callOperator hclean).bind fun r r' hr => .ok (.some hr)
        · exact .ok .none
      · exact .ok .none
    · simpa [rule] using Agree.ok .none
  | param p =>
    exact hf.of_fill_param (P := fun x => Agree _ (.ok none) (rule x)) (fun _ => .ok .none)
      fun _ _ => .ok .none
  | _ => simpa [rule] using Agree.ok .none

end Promotion

namespace Membership

include hf

theorem comparedValue?_fill {element : Param} (helement : ¬ Reserved element.name)
    (side value : Expr) :
    comparedValue? element (side.fill f) (value.fill f) =
      (comparedValue? element side value).map (fill f) := by
  have hparam : ∀ p, comparedValue? element (.param p) (value.fill f) =
      if p = element ∧ value.references element = false then some (value.fill f) else none := by
    intro p
    rw [comparedValue?, hf.references_fill helement]
  cases side with
  | param p =>
    rcases hf.fill_param_cases p with h | ⟨hp, ⟨v, -, h⟩ | ⟨name, hname, h⟩⟩
    · rw [h, hparam, comparedValue?]
      split <;> rfl
    · rw [h, comparedValue?, comparedValue?, if_neg fun hpe => ne_of_reserved hp helement hpe.1]
      · rfl
      · simp
    · have hne : (⟨name, p.type⟩ : Param) ≠ element := ne_of_reserved hname helement
      rw [h, hparam, comparedValue?, if_neg fun hpe => hne hpe.1,
        if_neg fun hpe => ne_of_reserved hp helement hpe.1]
      rfl
  | _ => simp [comparedValue?]

theorem soughtValue?_fill {op : BinaryOp} {element : Param} (helement : ¬ Reserved element.name)
    (body : Expr) :
    soughtValue? op element (body.fill f) = (soughtValue? op element body).map (fill f) := by
  cases body with
  | binary o left right =>
    rw [fill_binary, soughtValue?, soughtValue?, comparedValue?_fill hf helement,
      comparedValue?_fill hf helement]
    split
    · cases comparedValue? element left right <;> rfl
    · rfl
  | param p =>
    exact hf.of_fill_param (P := fun x => soughtValue? op element x = none) (fun _ => rfl)
      fun _ _ => rfl
  | _ => simp [soughtValue?]

theorem quantified?_fill {name : String} {predicate : Expr} (h : predicate.Clean) :
    quantified? name (predicate.fill f) =
      (quantified? name predicate).map fun v => (v.1, v.2.fill f) := by
  unfold quantified?
  cases comparison? name with
  | none => rfl
  | some op =>
    rw [hf.lambda?_fill]
    cases hlambda : predicate.lambda? with
    | none => rfl
    | some l =>
      obtain ⟨params, body⟩ := l
      rcases params with _ | ⟨element, _ | ⟨second, rest⟩⟩
      · rfl
      · have helement := (h.lambda? hlambda).1 element List.mem_cons_self
        simp only [Option.map_some, Option.bind_eq_bind, Option.bind_some,
          soughtValue?_fill hf helement, Option.map_map]
        split
        · rfl
        · rw [Option.map_map]
          rfl
      · rfl

theorem agree_rule (he : e.Clean) :
    Agree (Option.Rel (Filled f)) (rule e) (rule (e.fill f)) := by
  cases e with
  | call m receiver args type =>
    rcases args with _ | ⟨source, _ | ⟨predicate, _ | ⟨third, rest⟩⟩⟩
    · simpa [rule] using Agree.ok .none
    · simpa [rule] using Agree.ok .none
    · obtain ⟨hsource, hpredicate⟩ : source.Clean ∧ predicate.Clean := by
        simpa using (clean_call.mp he).2
      rw [fill_call, List.map_cons, List.map_cons, List.map_nil, rule, rule,
        quantified?_fill hf hpredicate]
      split
      · cases hq : quantified? m.name predicate with
        | none => exact .ok .none
        | some v =>
          obtain ⟨op, value⟩ := v
          have hvalue : value.Clean := everywhere_quantified? hpredicate hq
          have hargs : ∀ a ∈ [source, value], a.Clean := by simpa using ⟨hsource, hvalue⟩
          refine (hf.agree_callOperator hargs).bind fun r r' hr => .ok (.some ?_)
          obtain ⟨hr, rfl⟩ := hr
          split
          · exact ⟨clean_unary.mpr hr, (fill_unary _ _).symm⟩
          · exact hr.filled
      · exact .ok .none
    · simpa [rule] using Agree.ok .none
  | param p =>
    exact hf.of_fill_param (P := fun x => Agree _ (.ok none) (rule x)) (fun _ => .ok .none)
      fun _ _ => .ok .none
  | _ => simpa [rule] using Agree.ok .none

end Membership

namespace GroupJoin

/-- Members are looked at only for whether they are one of the two parameters. -/
theorem memberNames?_pair (outer group : Param) (a b : String) (x y : Expr) :
    memberNames? outer group [(a, x), (b, y)] =
      if x = .param outer then
        if y = .param outer then none else if y = .param group then some (a, b) else none
      else if x = .param group ∧ y = .param outer then some (b, a)
      else none := by
  cases x with
  | param p =>
    cases y with
    | param q => simp [memberNames?]
    | _ => simp [memberNames?]
  | _ => simp [memberNames?]

include hf

theorem memberNames?_fill {outer group : Param} (houter : ¬ Reserved outer.name)
    (hgroup : ¬ Reserved group.name) (members : List (String × Expr)) :
    memberNames? outer group (members.map fun m => (m.1, m.2.fill f)) =
      memberNames? outer group members := by
  rcases members with _ | ⟨⟨a, x⟩, _ | ⟨⟨b, y⟩, _ | ⟨third, rest⟩⟩⟩
  · rfl
  · simp [memberNames?]
  · simp only [List.map_cons, List.map_nil, memberNames?_pair, hf.fill_eq_param_iff houter,
      hf.fill_eq_param_iff hgroup]
  · simp [memberNames?]

/-- The arguments of a group join are filled in; the parameters and names that it shows stay. -/
def Parts.fill (f : Param → Option Expr) (parts : Parts) : Parts :=
  { parts with args := parts.args.map (Expr.fill f) }

theorem parts?_fill (he : e.Clean) : parts? (e.fill f) = (parts? e).map (Parts.fill f) := by
  cases e with
  | call m receiver args type =>
    rcases args with _ | ⟨outer, _ | ⟨inner, _ | ⟨outerKey, _ | ⟨innerKey, _ | ⟨selector, rest⟩⟩⟩⟩⟩
    iterate 5 simp [parts?]
    rcases rest with _ | ⟨sixth, rest⟩
    · have hselector : selector.Clean := (clean_call.mp he).2 selector (by simp)
      rw [fill_call]
      simp only [List.map_cons, List.map_nil, parts?, hf.lambda?_fill]
      split
      · cases hlambda : selector.lambda? with
        | none => rfl
        | some l =>
          obtain ⟨params, body⟩ := l
          rcases params with _ | ⟨outerParam, _ | ⟨groupParam, _ | ⟨third, more⟩⟩⟩
          · rfl
          · rfl
          · obtain ⟨hparams, -⟩ := hselector.lambda? hlambda
            have houter : ¬ Reserved outerParam.name := hparams outerParam (by simp)
            have hgroup : ¬ Reserved groupParam.name := hparams groupParam (by simp)
            cases body with
            | object members =>
              simp [memberNames?_fill hf houter hgroup, Parts.fill, Function.comp_def]
            | param p =>
              -- Neither a parameter nor a literal constructs an object.
              rcases hf.fill_param_cases p with h | ⟨-, ⟨v, -, h⟩ | ⟨name, -, h⟩⟩ <;> simp [h]
            | _ => simp
          · rfl
      · rfl
    · simp [parts?]
  | param p =>
    exact hf.of_fill_param (P := fun x => parts? x = none) (fun _ => rfl) fun _ _ => rfl
  | _ => simp [parts?]

theorem reachesGroup?_fill {pair : Param} (hpair : ¬ Reserved pair.name) (groupMember : String)
    (withDefault : Bool) (e : Expr) :
    reachesGroup? pair groupMember withDefault (e.fill f) =
      reachesGroup? pair groupMember withDefault e := by
  induction e using childInduction generalizing withDefault with
  | step e ih =>
    cases e with
    | call m receiver args type =>
      rcases args with _ | ⟨source, _ | ⟨second, rest⟩⟩
      · simp [reachesGroup?]
      · have hsource := fun flag => ih source (by simp [children]) flag
        simp only [fill_call, List.map_cons, List.map_nil, reachesGroup?, hsource]
      · simp [reachesGroup?]
    | member target name type =>
      cases target with
      | param p =>
        rw [fill_member]
        rcases hf.fill_param_cases p with h | ⟨hp, ⟨v, -, h⟩ | ⟨name', hname, h⟩⟩
        · rw [h]
        · simp [h, reachesGroup?, ne_of_reserved hp hpair]
        · have hne : (⟨name', p.type⟩ : Param) ≠ pair := ne_of_reserved hname hpair
          simp [h, reachesGroup?, ne_of_reserved hp hpair, hne]
      | _ => simp [reachesGroup?]
    | param p =>
      exact hf.of_fill_param (P := fun x => reachesGroup? pair groupMember withDefault x =
        reachesGroup? pair groupMember withDefault (param p)) (fun _ => by simp [reachesGroup?])
        fun _ _ => by simp [reachesGroup?]
    | _ => simp [reachesGroup?]

theorem unpacksGroup?_fill {selector : Expr} (h : selector.Clean) (groupMember : String) :
    unpacksGroup? (selector.fill f) groupMember = unpacksGroup? selector groupMember := by
  unfold unpacksGroup?
  rw [hf.lambda?_fill]
  cases hlambda : selector.lambda? with
  | none => rfl
  | some l =>
    obtain ⟨params, body⟩ := l
    rcases params with _ | ⟨pair, _ | ⟨second, rest⟩⟩
    · rfl
    · have hpair : ¬ Reserved pair.name := (h.lambda? hlambda).1 pair List.mem_cons_self
      exact reachesGroup?_fill hf hpair groupMember false body
    · rfl

theorem joinSelector?_fill {parts : Parts} (hparts : ¬ Reserved parts.outerParam.name)
    {rest : List Expr} (hrest : ∀ a ∈ rest, a.Clean) :
    joinSelector? (parts.fill f) (rest.map (Expr.fill f)) =
      (joinSelector? parts rest).map (Expr.fill f) := by
  obtain ⟨args, outerParam, outerMember, groupMember⟩ := parts
  rcases rest with _ | ⟨selector, _ | ⟨second, rest⟩⟩
  · rcases args with _ | ⟨outer, _ | ⟨inner, _ | ⟨outerKey, _ | ⟨innerKey, _ | ⟨fifth, more⟩⟩⟩⟩⟩
    iterate 4 rfl
    · have hi : ∀ element, ¬ Reserved (⟨"i", element⟩ : Param).name :=
        fun _ => not_reserved (by simp)
      simp only [List.map_nil, joinSelector?, Parts.fill, List.map_cons, hf.type_fill,
        Option.map_map]
      refine congrArg (fun g => Option.map g inner.type.element?) (funext fun element => ?_)
      simp [hf.fill_param_of_not_reserved (hi element)]
    · rfl
  · have hselector : selector.Clean := hrest selector List.mem_cons_self
    simp only [List.map_cons, List.map_nil, joinSelector?, hf.lambda?_fill]
    cases hlambda : selector.lambda? with
    | none => rfl
    | some l =>
      obtain ⟨params, body⟩ := l
      rcases params with _ | ⟨pair, _ | ⟨innerParam, _ | ⟨third, more⟩⟩⟩
      iterate 2 rfl
      · have hpair : ¬ Reserved pair.name :=
          (hselector.lambda? hlambda).1 pair List.mem_cons_self
        -- What is put for the outer row is no placeholder, so it is not filled in.
        have hsubst := hf.fill_substMember hpair outerMember (.param outerParam) body
        rw [hf.fill_param_of_not_reserved hparts] at hsubst
        simp only [Option.map_some, Parts.fill, ← hsubst, hf.references_fill hpair]
        split
        · rfl
        · simp
      · rfl
  · rfl

omit hf in
theorem selectorFor_fill (family : Family) (selector : Expr) :
    selectorFor family (selector.fill f) = (selectorFor family selector).fill f := by
  cases family with
  | inMemory => rfl
  | deferred => simp [selectorFor]

omit hf in
theorem outerParam_of_parts? (he : e.Clean) {parts : Parts} (h : parts? e = some parts) :
    ¬ Reserved parts.outerParam.name := by
  obtain ⟨m, receiver, outer, inner, outerKey, innerKey, selector, type, group, members, rfl, -,
    hlambda, -, -⟩ := exists_of_parts? h
  have hselector : selector.Clean := (clean_call.mp he).2 selector (by simp)
  exact (hselector.lambda? hlambda).1 parts.outerParam List.mem_cons_self

theorem flatJoin?_fill {family : Family} {source collection : Expr} {rest : List Expr}
    (hsource : source.Clean) (hcollection : collection.Clean) (hrest : ∀ a ∈ rest, a.Clean) :
    flatJoin? family (source.fill f) (collection.fill f) (rest.map (Expr.fill f)) =
      (flatJoin? family source collection rest).map fun j => (j.1, j.2.map (Expr.fill f)) := by
  unfold flatJoin?
  rw [parts?_fill hf hsource]
  cases hparts : parts? source with
  | none => rfl
  | some parts =>
    have houter := outerParam_of_parts? hsource hparts
    have hunpacks := unpacksGroup?_fill hf hcollection parts.groupMember
    have hselector := joinSelector?_fill hf houter hrest
    simp only [Option.map_some, Option.bind_eq_bind, Option.bind_some]
    change (unpacksGroup? (collection.fill f) parts.groupMember).bind _ = _
    rw [hunpacks]
    cases unpacksGroup? collection parts.groupMember with
    | none => rfl
    | some leftOuter =>
      simp only [Option.bind_some]
      split
      · rfl
      · rw [hselector]
        cases joinSelector? parts rest with
        | none => rfl
        | some selector => simp [Parts.fill, selectorFor_fill]

omit hf in
theorem clean_joinSelector? {parts : Parts} (hparts : ¬ Reserved parts.outerParam.name)
    {rest : List Expr} (hrest : ∀ a ∈ rest, a.Clean) {r : Expr}
    (h : joinSelector? parts rest = some r) : r.Clean := by
  obtain ⟨element, -, rfl⟩ | ⟨selector, pair, inner, body, rfl, hlambda, -, rfl⟩ :=
    joinSelector?_eq_some h
  · have hi : ¬ Reserved "i" := not_reserved (by decide)
    simp [hparts, hi]
  · obtain ⟨hparams, hbody⟩ := (hrest selector List.mem_cons_self).lambda? hlambda
    have hinner : ¬ Reserved inner.name := hparams inner (by simp)
    have hsubst := hbody.substMember pair parts.outerMember (clean_param parts.outerParam)
    simp [hparts, hinner, hsubst]

omit hf in
theorem clean_flatJoin? {family : Family} {source collection : Expr} {rest args : List Expr}
    {name : String} (hsource : source.Clean) (hrest : ∀ a ∈ rest, a.Clean)
    (h : flatJoin? family source collection rest = some (name, args)) : ∀ a ∈ args, a.Clean := by
  obtain ⟨parts, leftOuter, selector, hparts, -, -, hselector, -, rfl⟩ := flatJoin?_eq_some h
  have hclean := clean_joinSelector? (outerParam_of_parts? hsource hparts) hrest hselector
  intro a ha
  rcases List.mem_append.mp ha with ha | ha
  · exact everywhere_parts? hsource hparts a ha
  · rw [List.mem_singleton.mp ha]
    cases family with
    | inMemory => exact hclean
    | deferred => exact clean_quote.mpr hclean

theorem agree_rule (he : e.Clean) :
    Agree (Option.Rel (Filled f)) (rule e) (rule (e.fill f)) := by
  cases e with
  | call m receiver args type =>
    rcases args with _ | ⟨source, _ | ⟨collection, rest⟩⟩
    · simpa [rule] using Agree.ok .none
    · simpa [rule] using Agree.ok .none
    · obtain ⟨hsource, hcollection, hrest⟩ :
          source.Clean ∧ collection.Clean ∧ ∀ a ∈ rest, a.Clean := by
        simpa using (clean_call.mp he).2
      rw [fill_call, List.map_cons, List.map_cons, rule, rule]
      split
      · cases hfamily : Family.ofOwner? m.owner with
        | none => exact .ok .none
        | some family =>
          simp only [Option.bind_some, flatJoin?_fill hf hsource hcollection hrest]
          cases hflat : flatJoin? family source collection rest with
          | none => exact .ok .none
          | some j =>
            obtain ⟨name, joined⟩ := j
            have hjoined : ∀ a ∈ joined, a.Clean := clean_flatJoin? hsource hrest hflat
            exact (hf.agree_callOperator hjoined).bind fun r r' hr => .ok (.some hr)
      · exact .ok .none
  | param p =>
    exact hf.of_fill_param (P := fun x => Agree _ (.ok none) (rule x)) (fun _ => .ok .none)
      fun _ _ => .ok .none
  | _ => simpa [rule] using Agree.ok .none

end GroupJoin

namespace KeyComparison

variable {model : Model}

theorem keyAccess_of_kindName (h : e.kindName ≠ "Member") (key : Property) :
    keyAccess model e key = .member e key.name key.type := by
  cases e with
  | member => exact absurd rfl h
  | _ => rfl

theorem clean_keyAccess (he : e.Clean) (key : Property) : (keyAccess model e key).Clean := by
  unfold keyAccess
  split
  · split
    · exact clean_member.mpr (clean_member.mp he)
    · exact clean_member.mpr he
  · exact clean_member.mpr he

include hf

theorem keyAccess_fill (e : Expr) (key : Property) :
    keyAccess model (e.fill f) key = (keyAccess model e key).fill f := by
  cases e with
  | member target name type =>
    have hforeign : foreignKeyProperty? model (target.fill f) name key =
        foreignKeyProperty? model target name key := by
      unfold foreignKeyProperty?
      rw [hf.type_fill]
    rw [fill_member, keyAccess, keyAccess, hforeign]
    split <;> simp
  | param p =>
    change _ = (Expr.member (.param p) key.name key.type).fill f
    rw [fill_member]
    exact hf.of_fill_param (P := fun x => keyAccess model x key = .member x key.name key.type)
      (fun _ => rfl) fun _ _ => rfl
  | _ =>
    rw [keyAccess_of_kindName (by simp [kindName]), keyAccess_of_kindName (by simp [kindName]),
      fill_member]

theorem operandEntity?_fill (e : Expr) : operandEntity? (e.fill f) = operandEntity? e := by
  rw [operandEntity?, operandEntity?, hf.isNullConstant_fill, hf.type_fill]

omit hf in
theorem filled_foldBinary? {op : BinaryOp} {es : List Expr} (hes : ∀ x ∈ es, x.Clean) :
    Option.Rel (Filled f) (Expr.foldBinary? op es) (Expr.foldBinary? op (es.map (fill f))) := by
  rw [fill_foldBinary?]
  cases h : Expr.foldBinary? op es with
  | none => exact .none
  | some x => exact .some (clean_foldBinary? hes h).filled

theorem filled_compareKeys {left right : Expr} (hleft : left.Clean) (hright : right.Clean)
    (mode : Mode) (entity : Entity) :
    Option.Rel (Filled f) (compareKeys model mode entity left right)
      (compareKeys model mode entity (left.fill f) (right.fill f)) := by
  have hmap : (entity.keyProperties.map fun key => Expr.binary mode.compare
      (keyAccess model (left.fill f) key) (keyAccess model (right.fill f) key)) =
      (entity.keyProperties.map fun key => Expr.binary mode.compare (keyAccess model left key)
        (keyAccess model right key)).map (fill f) := by
    simp [keyAccess_fill hf]
  unfold compareKeys
  rw [hmap]
  refine filled_foldBinary? fun x hx => ?_
  obtain ⟨key, -, rfl⟩ := List.mem_map.mp hx
  exact clean_binary.mpr ⟨clean_keyAccess hleft key, clean_keyAccess hright key⟩

theorem filled_testKeys (he : e.Clean) (mode : Mode) (entity : Entity) :
    Option.Rel (Filled f) (testKeys model mode entity e)
      (testKeys model mode entity (e.fill f)) := by
  have hmap : (entity.keyProperties.map fun key => Expr.unary mode.testNull
      (keyAccess model (e.fill f) key)) =
      (entity.keyProperties.map fun key => Expr.unary mode.testNull
        (keyAccess model e key)).map (fill f) := by
    simp [keyAccess_fill hf]
  unfold testKeys
  rw [hmap]
  refine filled_foldBinary? fun x hx => ?_
  obtain ⟨key, -, rfl⟩ := List.mem_map.mp hx
  exact clean_unary.mpr (clean_keyAccess he key)

omit hf in
/-- The node is only named in the failure. -/
theorem agree_entity (name : String) (node node' : Expr) :
    Agree Eq (entity model name node) (entity model name node') := by
  unfold entity
  split
  · exact .ok rfl
  · exact .error rfl

theorem agree_compareWithNull (he : e.Clean) (mode : Mode) (name : String)
    (other node node' : Expr) :
    Agree (Option.Rel (Filled f)) (compareWithNull model mode name e other node)
      (compareWithNull model mode name (e.fill f) (other.fill f) node') := by
  unfold compareWithNull
  rw [hf.isNullConstant_fill]
  split
  · refine (agree_entity name node node').bind fun entity _ heq => ?_
    subst heq
    exact .ok (filled_testKeys hf he mode entity)
  · exact .error rfl

theorem agree_compare {left right : Expr} (hleft : left.Clean) (hright : right.Clean)
    (equal : Bool) (node node' : Expr) :
    Agree (Option.Rel (Filled f)) (compare model equal left right node)
      (compare model equal (left.fill f) (right.fill f) node') := by
  unfold compare
  simp only [hf.isNullConstant_fill, hf.type_fill, operandEntity?_fill hf]
  split
  · split
    · exact .ok (.some ⟨clean_literal _, by simp [literal]⟩)
    · exact .ok .none
  · split
    · exact .ok .none
    · split
      · refine (agree_entity _ node node').bind fun entity _ heq => ?_
        subst heq
        exact .ok (filled_compareKeys hf hleft hright _ entity)
      · exact .error rfl
    · exact agree_compareWithNull hf hleft _ _ _ node node'
    · exact agree_compareWithNull hf hright _ _ _ node node'

theorem agree_rule (he : e.Clean) :
    Agree (Option.Rel (Filled f)) (rule model e) (rule model (e.fill f)) := by
  cases e with
  | binary op left right =>
    obtain ⟨hleft, hright⟩ := clean_binary.mp he
    rw [fill_binary]
    cases op with
    | eq => exact agree_compare hf hleft hright true _ _
    | notEq => exact agree_compare hf hleft hright false _ _
    | _ => exact .ok .none
  | param p =>
    exact hf.of_fill_param (P := fun x => Agree _ (.ok none) (rule model x)) (fun _ => .ok .none)
      fun _ _ => .ok .none
  | _ => simpa [rule] using Agree.ok .none

end KeyComparison

namespace MemberPushdown

theorem access_of_kindName (h : e.kindName ≠ "New") (name : String) (type : DataType) :
    access e name type = .member e name type := by
  cases e with
  | object => exact absurd rfl h
  | _ => rfl

theorem clean_access (he : e.Clean) (name : String) (type : DataType) :
    (access e name type).Clean := by
  unfold access
  split
  · rename_i members
    cases hlookup : members.lookup name with
    | none => exact clean_member.mpr he
    | some x =>
      exact clean_object.mp he (name, x) (mem_of_lookup hlookup)
  · exact clean_member.mpr he

theorem clean_projection? {source body : Expr} {params : List Param} (he : e.Clean)
    (h : projection? e = some (source, params, body)) :
    source.Clean ∧ (∀ p ∈ params, ¬ Reserved p.name) ∧ body.Clean := by
  obtain ⟨m, receiver, selector, type, rfl, -, -, hlambda⟩ := projection?_eq_some h
  obtain ⟨hsource, hselector⟩ : source.Clean ∧ selector.Clean := by
    simpa using (clean_call.mp he).2
  exact ⟨hsource, hselector.lambda? hlambda⟩

theorem clean_projectionArgs? {name : String} {type : DataType} {args : List Expr} (he : e.Clean)
    (h : projectionArgs? e name type = some args) : ∀ a ∈ args, a.Clean := by
  obtain ⟨inner, params, body, hprojection, rfl⟩ | ⟨-, element, -, rfl⟩ := projectionArgs?_eq_some h
  · obtain ⟨hinner, hparams, hbody⟩ := clean_projection? he hprojection
    have haccess := clean_access hbody name type
    simpa using ⟨hinner, hparams, haccess⟩
  · have hx : ¬ Reserved "x" := not_reserved (by decide)
    have haccess := clean_access (clean_param ⟨"x", element⟩) name type
    simpa using ⟨he, hx, haccess⟩

include hf

theorem access_fill (e : Expr) (name : String) (type : DataType) :
    access (e.fill f) name type = (access e name type).fill f := by
  cases e with
  | object members =>
    rw [fill_object, access, access, lookup_map_snd]
    cases members.lookup name <;> simp
  | param p =>
    change _ = (Expr.member (.param p) name type).fill f
    rw [fill_member]
    exact hf.of_fill_param (P := fun x => access x name type = .member x name type)
      (fun _ => rfl) fun _ _ => rfl
  | _ =>
    rw [access_of_kindName (by simp [kindName]), access_of_kindName (by simp [kindName])]
    exact (fill_member _ _ _).symm

theorem projection?_fill (e : Expr) :
    projection? (e.fill f) =
      (projection? e).map fun p => (p.1.fill f, p.2.1, p.2.2.fill f) := by
  cases e with
  | call m receiver args type =>
    rcases args with _ | ⟨source, _ | ⟨selector, _ | ⟨third, rest⟩⟩⟩
    · simp [projection?]
    · simp [projection?]
    · simp only [fill_call, List.map_cons, List.map_nil, projection?, hf.lambda?_fill,
        Option.map_map]
      split
      · simp [Function.comp_def]
      · rfl
    · simp [projection?]
  | param p =>
    exact hf.of_fill_param (P := fun x => projection? x = none) (fun _ => rfl) fun _ _ => rfl
  | _ => simp [projection?]

theorem projectionArgs?_fill (e : Expr) (name : String) (type : DataType) :
    projectionArgs? (e.fill f) name type =
      (projectionArgs? e name type).map (List.map (fill f)) := by
  unfold projectionArgs?
  rw [projection?_fill hf, hf.type_fill]
  cases projection? e with
  | some p => simp [access_fill hf]
  | none =>
    have hx : ∀ element, ¬ Reserved (⟨"x", element⟩ : Param).name :=
      fun _ => not_reserved (by simp)
    rw [Option.map_none, Option.map_map]
    refine congrArg (fun g => Option.map g e.type.element?) (funext fun element => ?_)
    simp [← access_fill hf, hf.fill_param_of_not_reserved (hx element)]

theorem agree_pickedFrom? {args : List Expr} (hargs : ∀ a ∈ args, a.Clean) :
    Agree (Option.Rel (Filled f)) (pickedFrom? args) (pickedFrom? (args.map (fill f))) := by
  rcases args with _ | ⟨source, _ | ⟨predicate, _ | ⟨third, rest⟩⟩⟩
  · exact .ok .none
  · exact .ok (.some (hargs source List.mem_cons_self).filled)
  · exact (hf.agree_callOperator hargs).map fun r r' hr => .some hr
  · exact .ok .none

theorem agree_rule (he : e.Clean) :
    Agree (Option.Rel (Filled f)) (rule e) (rule (e.fill f)) := by
  cases e with
  | member target name type =>
    rw [fill_member]
    cases target with
    | call m receiver args callType =>
      have hargs : ∀ a ∈ args, a.Clean := (clean_call.mp (clean_member.mp he)).2
      rw [fill_call, rule, rule]
      split
      · refine (agree_pickedFrom? hf hargs).bind fun source source' hsource => ?_
        cases hsource with
        | none => exact .ok .none
        | some hs =>
          obtain ⟨hs, rfl⟩ := hs
          simp only [projectionArgs?_fill hf]
          split
          · rename_i hprojection
            rw [hprojection]
            exact .ok .none
          · rename_i projected hprojection
            have hprojected := clean_projectionArgs? hs hprojection
            rw [hprojection]
            refine (hf.agree_callOperator hprojected).bind fun r r' hr => ?_
            obtain ⟨hr, rfl⟩ := hr
            have hpicked : ∀ a ∈ [r], a.Clean := by simpa using hr
            exact (hf.agree_callOperator hpicked).bind fun q q' hq => .ok (.some hq)
      · exact .ok .none
    | param p =>
      exact hf.of_fill_param (P := fun x => Agree _ (.ok none) (rule (.member x name type)))
        (fun _ => .ok .none) fun _ _ => .ok .none
    | _ => simpa [rule] using Agree.ok .none
  | param p =>
    exact hf.of_fill_param (P := fun x => Agree _ (.ok none) (rule x)) (fun _ => .ok .none)
      fun _ _ => .ok .none
  | _ => simpa [rule] using Agree.ok .none

end MemberPushdown

namespace Inlining

theorem clean_knownLambda? (he : e.Clean) {params : List Param} {body : Expr}
    (h : knownLambda? e = some (params, body)) :
    (∀ p ∈ params, ¬ Reserved p.name) ∧ body.Clean := by
  unfold knownLambda? at h
  split at h
  · cases h
    exact clean_lambda.mp he
  · cases h
    exact clean_lambda.mp (clean_quote.mp he)
  · -- Nothing in the body of a delegate has a reserved name.
    have hbody : Unreserved _ := he.root
    exact hbody.clean.lambda? h
  · cases h

include hf

theorem knownLambda?_fill (he : e.Clean) :
    knownLambda? (e.fill f) = (knownLambda? e).map fun l => (l.1, l.2.fill f) := by
  cases e with
  | const v type =>
    rw [fill_const]
    unfold knownLambda?
    split
    · cases ‹Expr.const v type = _›
    · cases ‹Expr.const v type = _›
    · rename_i name body type' heq
      cases heq
      have hbody : body.Unreserved := he.root
      have hsame : body.fill f = body := hf.fill_unreserved hbody
      rw [← hf.lambda?_fill, hsame]
    · rfl
  | quote inner =>
    cases inner with
    | param p =>
      rw [fill_quote]
      exact hf.of_fill_param (P := fun x => knownLambda? (.quote x) = none) (fun _ => rfl)
        fun _ _ => rfl
    | _ => simp [knownLambda?]
  | param p =>
    refine hf.of_fill_param (P := fun x => knownLambda? x = none) (fun _ => rfl) fun v hv => ?_
    -- Delegates are not literals.
    cases v with
    | delegate => cases hv
    | _ => rfl
  | _ => simp [knownLambda?]

/-- The case of an invocation in the induction: the callee is inlined on both sides or on neither,
and the bodies with the arguments put in are inlined with a smaller budget. -/
theorem agree_inline_invoke {budget : Nat} {callee : Expr} {args : List Expr} {type : DataType}
    (hcallee : callee.Clean) (hargs : ∀ a ∈ args, a.Clean)
    (ih : Agree (Filled f) (inline budget callee) (inline budget (callee.fill f)))
    (ihBudget : ∀ rest < budget, ∀ {x : Expr}, x.Clean →
      Agree (Filled f) (inline rest x) (inline rest (x.fill f))) :
    Agree (Filled f) (inline budget (.invoke callee args type))
      (inline budget ((Expr.invoke callee args type).fill f)) := by
  -- Either both callees are known to be lambdas, or both have to be inlined.
  have hknown : Agree (Filled f)
      (if (knownLambda? callee).isSome then pure callee else inline budget callee)
      (if (knownLambda? (callee.fill f)).isSome then pure (callee.fill f)
        else inline budget (callee.fill f)) := by
    rw [knownLambda?_fill hf hcallee, Option.isSome_map]
    split
    · exact .ok hcallee.filled
    · exact ih
  rw [fill_invoke, inline.eq_def, inline.eq_def budget (.invoke _ _ _)]
  refine hknown.bind fun target target' htarget => ?_
  obtain ⟨htarget, rfl⟩ := htarget
  rw [knownLambda?_fill hf htarget]
  cases hlambda : knownLambda? target with
  | none => exact .error rfl
  | some l =>
    obtain ⟨params, body⟩ := l
    obtain ⟨hparams, hbody⟩ := clean_knownLambda? htarget hlambda
    simp only [Option.map_some, List.length_map]
    split
    · exact .error rfl
    · cases budget with
      | zero => exact .error rfl
      | succ rest =>
        have hσ : BindsUnreserved (params.zip args) :=
          fun b hb => hparams b.1 (List.of_mem_zip hb).1
        have hzip : params.zip (args.map (fill f)) =
            (params.zip args).map fun b => (b.1, b.2.fill f) := by
          rw [List.zip_map_right]
          rfl
        -- To fill in a body with its arguments is to fill in all of them before.
        have hsubst := hf.fill_subst hσ body
        have hclean : (Expr.subst (params.zip args) body).Clean :=
          Everywhere.subst hygienic_setChildren
            (fun b hb => hargs b.2 (List.of_mem_zip hb).2) hbody
        rw [hzip, ← hsubst]
        exact ihBudget rest (Nat.lt_succ_self rest) hclean

/-- The induction is on the budget and then on the tree, as inlining itself goes on. -/
theorem agree_inline {budget : Nat} (he : e.Clean) :
    Agree (Filled f) (inline budget e) (inline budget (e.fill f)) := by
  induction budget using Nat.strongRecOn generalizing e with
  | ind budget ihBudget =>
    induction e using childInduction with
    | step e ih =>
      cases hinvoke : e.isInvoke with
      | true =>
        obtain ⟨callee, args, type, rfl⟩ : ∃ callee args type, e = .invoke callee args type := by
          cases e with
          | invoke callee args type => exact ⟨callee, args, type, rfl⟩
          | _ => cases hinvoke
        have hcallee : callee.Clean := he.child (by simp [children])
        have hargs : ∀ a ∈ args, a.Clean := fun a ha => he.child (by simp [children, ha])
        exact agree_inline_invoke hf hcallee hargs (ih callee (by simp [children]) hcallee) ihBudget
      | false =>
        have hfilled : (e.fill f).isInvoke = false := by
          by_cases hparam : ∃ p, e = param p
          · obtain ⟨p, rfl⟩ := hparam
            exact hf.of_fill_param (P := fun x => x.isInvoke = false) (fun _ => rfl) fun _ _ => rfl
          · rw [fill_node fun p hp => hparam ⟨p, hp⟩, isInvoke_setChildren, hinvoke]
        rw [inline_eq_traverse hinvoke, inline_eq_traverse hfilled]
        exact hf.agree_traverse he fun c hc => ih c hc (he.child hc)

end Inlining

end Pass

end QueryLowering
