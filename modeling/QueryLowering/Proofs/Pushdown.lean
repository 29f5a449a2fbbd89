import Mathlib
import QueryLowering.Proofs.Settled.Rules

/-!
Where members of picked rows are left after the pushdown. Every access that the traversal meets is
moved into the projection of its subquery. There it becomes a new access, and this one is not looked at
again: if the projection is itself to a row that a subquery picks, then the access stays on that row.
-/

namespace QueryLowering.Pass.MemberPushdown

open QueryLowering.Expr

variable {e n r target source : Expr} {m : Method} {receiver : Option Expr} {args : List Expr}
  {name : String} {type callType : DataType}

/-- Is this a call that picks one row of a deferred query? -/
def picks : Expr → Bool
  | .call m _ args _ =>
    m.owner == Family.deferred.owner && decide (m.name ∈ Operator.elementPicking) &&
      (Operator.findFor? m args).isSome
  | _ => false

/-- Is this an access to a member of a picked row? -/
def readsPicked : Expr → Bool
  | .member target _ _ => picks target
  | _ => false

theorem picks_call_iff : picks (.call m receiver args type) = true ↔
    m.owner = Family.deferred.owner ∧ m.name ∈ Operator.elementPicking ∧
      ∃ op, Operator.findFor? m args = some op := by
  simp [picks, and_assoc, Option.isSome_iff_exists]

/-- A row is picked from a deferred query, perhaps by a predicate. -/
theorem params_of_picking : ∀ op ∈ Operator.all, op.family = .deferred →
    op.name ∈ Operator.elementPicking →
      op.params = [.queryable] ∨ op.params = [.queryable, .quotedLambda 1] := by
  decide

/-- A deferred filter gives a deferred query again. -/
theorem result_of_where : ∀ op ∈ Operator.all, op.family = .deferred → op.name = "Where" →
    op.result = .source := by
  decide

/-- The type of an argument that has the shape of a deferred query. -/
theorem type_of_queryable (h : ArgShape.of e = .queryable) : ∃ t, e.type = .queryable t := by
  unfold ArgShape.of at h
  split at h
  · cases h
  · cases h
  · cases h
  · split at h
    · rename_i t ht
      exact ⟨t, ht⟩
    · cases h
    · cases h

/-- The rows that something is picked from are a deferred query, with or without a predicate. -/
theorem args_of_picks (h : picks (.call m receiver args type) = true) :
    (∃ source t, args = [source] ∧ source.type = .queryable t) ∨
      ∃ source predicate, args = [source, predicate] := by
  obtain ⟨howner, hname, op, hop⟩ := picks_call_iff.mp h
  obtain ⟨hmem, hfamily, hopname, hshapes⟩ := Operator.find?_eq_some hop
  have hparams := params_of_picking op hmem (Family.owner_injective (hfamily.trans howner))
    (hopname ▸ hname)
  rcases args with _ | ⟨source, _ | ⟨predicate, _ | ⟨third, rest⟩⟩⟩
  · obtain hp | hp := hparams <;> simp [hp, Operator.acceptsShapes] at hshapes
  · left
    obtain hp | hp := hparams
    · have hsource : ArgShape.queryable = ArgShape.of source := by
        simpa [hp, Operator.acceptsShapes, ArgShape.accepts] using hshapes
      obtain ⟨t, ht⟩ := type_of_queryable hsource.symm
      exact ⟨source, t, rfl, ht⟩
    · simp [hp, Operator.acceptsShapes] at hshapes
  · exact .inr ⟨source, predicate, rfl⟩
  · obtain hp | hp := hparams <;> simp [hp, Operator.acceptsShapes] at hshapes

theorem type_of_where {args : List Expr}
    (h : callOperator Family.deferred.owner "Where" args = .ok r) : ∃ t, r.type = .queryable t := by
  obtain ⟨op, type, hop, htype, rfl⟩ := callOperator_eq_ok h
  obtain ⟨hmem, hfamily, hname, -⟩ := Operator.find?_eq_some hop
  have hdeferred : op.family = .deferred := Family.owner_injective hfamily
  unfold Operator.resultType at htype
  rw [result_of_where op hmem hdeferred hname, hdeferred] at htype
  obtain ⟨t, -, rfl⟩ := map_eq_ok.mp htype
  exact ⟨t, rfl⟩

/-- There is a projection to a member of any rows with a row type. -/
theorem projectionArgs?_ne_none {t : DataType} (h : source.type = .queryable t) :
    projectionArgs? source name type ≠ none := by
  unfold projectionArgs?
  split
  · simp
  · simp [h, DataType.element?]

/-- Why the rule may pass over a member of what an operator picks. -/
theorem rule_eq_none (howner : m.owner = Family.deferred.owner)
    (hname : m.name ∈ Operator.elementPicking)
    (h : rule (.member (.call m receiver args callType) name type) = .ok none) :
    pickedFrom? args = .ok none ∨ ∃ source, pickedFrom? args = .ok (some source) ∧
      projectionArgs? source name type = none := by
  simp only [rule, howner, hname, and_self, if_true] at h
  obtain ⟨source?, hsource, h⟩ := bind_eq_ok.mp h
  cases source? with
  | none => exact .inl hsource
  | some source =>
    refine .inr ⟨source, hsource, ?_⟩
    simp only at h
    split at h
    · assumption
    · obtain ⟨projected, -, h⟩ := bind_eq_ok.mp h
      obtain ⟨picked, -, h⟩ := bind_eq_ok.mp h
      cases h

/-- The rule does not pass over a member of a picked row. -/
theorem rule_ne_none (h : readsPicked n = true) : rule n ≠ .ok none := by
  cases n with
  | member target name type =>
    cases target with
    | call m receiver args callType =>
      have hpicks : picks (.call m receiver args callType) = true := h
      obtain ⟨howner, hname, -⟩ := picks_call_iff.mp hpicks
      -- The rows have a row type, whether a predicate is given or not.
      have hrows : ∀ source?, pickedFrom? args = .ok source? →
          ∃ source t, source? = some source ∧ source.type = .queryable t := by
        intro source? hsource
        obtain ⟨source, t, rfl, ht⟩ | ⟨rows, predicate, rfl⟩ := args_of_picks hpicks
        · cases hsource
          exact ⟨source, t, rfl, ht⟩
        · obtain ⟨filtered, hfiltered, rfl⟩ := map_eq_ok.mp hsource
          obtain ⟨t, ht⟩ := type_of_where hfiltered
          exact ⟨filtered, t, rfl, ht⟩
      intro hrule
      obtain hnone | ⟨source, hsource, hnone⟩ := rule_eq_none howner hname hrule
      · obtain ⟨source, t, hsome, -⟩ := hrows _ hnone
        cases hsome
      · obtain ⟨source', t, heq, ht⟩ := hrows _ hsource
        cases heq
        exact projectionArgs?_ne_none ht hnone
    | _ => cases h
  | _ => cases h

/-- Reads one member after the other, beginning with a given row. -/
def readAll (row : Expr) (accesses : List (String × DataType)) : Expr :=
  accesses.foldl (fun e a => .member e a.1 a.2) row

/-- A tree in which members of picked rows are read nowhere but in the bodies of deferred projections,
where they are the whole body, and off given rows only. -/
inductive Pushed (S : Expr → Prop) : Expr → Prop
  | node {e : Expr} (hread : readsPicked e = false) (hchildren : ∀ c ∈ e.children, Pushed S c) :
      Pushed S e
  | projection {source row : Expr} {accesses : List (String × DataType)} {params : List Param}
      {typeArgs : List DataType} {type : DataType} (hsource : Pushed S source)
      (hrow : Pushed S row) (hpicks : picks row = true) (hleft : S row) (hne : accesses ≠ []) :
      Pushed S (.call ⟨Family.deferred.owner, "Select", typeArgs⟩ none
        [source, .quote (.lambda params (readAll row accesses))] type)

/-- What the body of a projection may be. -/
def PushedBody (S : Expr → Prop) (body : Expr) : Prop :=
  Pushed S body ∨ ∃ row accesses, body = readAll row accesses ∧ Pushed S row ∧ picks row = true ∧
    S row ∧ accesses ≠ []

variable {S : Expr → Prop}

theorem Pushed.mono {P : Expr → Prop} (he : Pushed S e) (hSP : ∀ row, S row → P row) :
    Pushed P e := by
  induction he with
  | node hread _ ih => exact .node hread ih
  | projection _ _ hpicks hleft hne ihsource ihrow =>
    exact .projection ihsource ihrow hpicks (hSP _ hleft) hne

/-- If accesses may be left on no row, then none is left. -/
theorem Pushed.everywhere (he : Pushed S e) (hS : ∀ row, ¬ S row) :
    e.Everywhere fun n => readsPicked n = false := by
  induction he with
  | node hread _ ih => exact everywhere_iff.mpr ⟨hread, ih⟩
  | projection _ _ _ hleft => exact absurd hleft (hS _)

theorem Pushed.children (he : Pushed S e) (hselect : ∀ m, e.method? = some m → m.name ≠ "Select") :
    ∀ c ∈ e.children, Pushed S c := by
  cases he with
  | node _ hchildren => exact hchildren
  | projection => exact absurd rfl (hselect _ rfl)

/-- A lambda in a tree like this has a body like this. -/
theorem Pushed.lambda? (he : Pushed S e) {params : List Param} {body : Expr}
    (h : e.lambda? = some (params, body)) : Pushed S body := by
  unfold Expr.lambda? at h
  split at h
  · cases h
    exact he.children (by simp [method?]) body (by simp [Expr.children])
  · cases h
    have hlambda := he.children (by simp [method?]) (.lambda params body) (by simp [Expr.children])
    exact hlambda.children (by simp [method?]) body (by simp [Expr.children])
  · cases h

theorem Pushed.projection? (hsource : Pushed S source) {rows body : Expr} {params : List Param}
    (h : projection? source = some (rows, params, body)) : Pushed S rows ∧ PushedBody S body := by
  cases hsource with
  | node _ hchildren =>
    obtain ⟨m, receiver, selector, type, rfl, -, -, hlambda⟩ := projection?_eq_some h
    refine ⟨hchildren rows (by simp [Expr.children]), .inl ?_⟩
    have hselector : Pushed S selector := hchildren selector (by simp [Expr.children])
    exact hselector.lambda? hlambda
  | projection hrows hrow hpicks hleft hne =>
    cases h
    exact ⟨hrows, .inr ⟨_, _, rfl, hrow, hpicks, hleft, hne⟩⟩

/-- A member that is read off a body makes a body again: the member of an object is a part of it, and
any other access goes on from the body. -/
theorem PushedBody.access {body : Expr} (hbody : PushedBody S body)
    (hleft : picks body = true → S body) (name : String) (type : DataType) :
    PushedBody S (access body name type) := by
  have hmember (hmember : ∀ members, body ≠ .object members) :
      MemberPushdown.access body name type = .member body name type := by
    unfold MemberPushdown.access
    split
    · exact absurd rfl (hmember _)
    · rfl
  obtain hbody | ⟨row, accesses, rfl, hrow, hpicks, hrowLeft, hne⟩ := hbody
  · by_cases hobject : ∃ members, body = .object members
    · obtain ⟨members, rfl⟩ := hobject
      left
      cases hlookup : members.lookup name with
      | none =>
        simp only [MemberPushdown.access, hlookup, Option.getD_none]
        refine .node rfl ?_
        simpa [Expr.children] using hbody
      | some value =>
        simp only [MemberPushdown.access, hlookup, Option.getD_some]
        have hvalue : value ∈ (Expr.object members).children :=
          List.mem_map.mpr ⟨(name, value), mem_of_lookup hlookup, rfl⟩
        exact hbody.children (by simp [method?]) value hvalue
    · rw [hmember fun members h => hobject ⟨members, h⟩]
      cases hpicks : picks body with
      | true => exact .inr ⟨body, [(name, type)], rfl, hbody, hpicks, hleft hpicks, by simp⟩
      | false =>
        refine .inl (.node hpicks ?_)
        simpa [Expr.children] using hbody
  · right
    rw [hmember]
    · refine ⟨row, accesses ++ [(name, type)], ?_, hrow, hpicks, hrowLeft, by simp⟩
      simp [readAll]
    · -- The last access of the chain is the root of the body.
      obtain ⟨init, last, rfl⟩ := (List.eq_nil_or_concat accesses).resolve_left hne
      simp [readAll]

/-- A projection to a body, as it is put in. -/
theorem PushedBody.select {rows body : Expr} (hbody : PushedBody S body) (hrows : Pushed S rows)
    (params : List Param) (typeArgs : List DataType) (type : DataType) :
    Pushed S (.call ⟨Family.deferred.owner, "Select", typeArgs⟩ none
      [rows, .quote (.lambda params body)] type) := by
  obtain hbody | ⟨row, accesses, rfl, hrow, hpicks, hleft, hne⟩ := hbody
  · have hlambda : Pushed S (.lambda params body) := by
      refine .node rfl ?_
      simpa [Expr.children] using hbody
    have hquote : Pushed S (.quote (.lambda params body)) := by
      refine .node rfl ?_
      simpa [Expr.children] using hlambda
    refine .node rfl ?_
    simpa [Expr.children] using ⟨hrows, hquote⟩
  · exact .projection hrows hrow hpicks hleft hne

/-- Of the pick of one row from a projection to a picked row, this row. -/
def projectedPick? : Expr → Option Expr
  | .call m _ [source] _ =>
    if m.owner = Family.deferred.owner ∧ m.name ∈ Operator.elementPicking then
      (projection? source).bind fun (_, _, body) => if picks body then some body else none
    else none
  | _ => none

/-- What a member of a picked row becomes: the pick from a projection. The projection is the one that
there was, with the member read off its body, or it is a new one. -/
theorem rule_eq_pick (h : rule n = .ok (some r)) :
    ∃ m receiver args callType name type rows params body projectedArgs projectedType pickedArgs
        pickedType,
      n = .member (.call m receiver args callType) name type ∧
      m.owner = Family.deferred.owner ∧ m.name ∈ Operator.elementPicking ∧
      r = .call ⟨Family.deferred.owner, m.name, pickedArgs⟩ none
        [.call ⟨Family.deferred.owner, "Select", projectedArgs⟩ none
          [rows, .quote (.lambda params (access body name type))] projectedType] pickedType ∧
      ((∃ source, args = [source] ∧ projection? source = some (rows, params, body)) ∨
        (∃ x, body = .param x) ∧ (args = [rows] ∧ projection? rows = none ∨
          ∃ source predicate whereArgs whereType, args = [source, predicate] ∧
          rows = .call ⟨Family.deferred.owner, "Where", whereArgs⟩ none [source, predicate]
            whereType)) := by
  obtain ⟨m, receiver, args, callType, name, type, source, projection, projected, rfl, hname, hpicked,
    hprojection, hprojected, hr⟩ := rule_eq_some h
  have howner : m.owner = Family.deferred.owner := by
    by_contra howner
    simp [rule, howner] at h
  obtain ⟨-, pickedType, -, -, rfl⟩ := callOperator_eq_ok hr
  obtain ⟨-, projectedType, -, -, rfl⟩ := callOperator_eq_ok hprojected
  -- A filter is no projection, so one that exists is the only argument.
  have hsource : args = [source] ∨ projection? source = none ∧
      ∃ rows predicate whereArgs whereType, args = [rows, predicate] ∧
        source = .call ⟨Family.deferred.owner, "Where", whereArgs⟩ none [rows, predicate]
          whereType := by
    unfold pickedFrom? at hpicked
    split at hpicked
    · cases hpicked
      exact .inl rfl
    · obtain ⟨filtered, hfiltered, heq⟩ := map_eq_ok.mp hpicked
      cases heq
      obtain ⟨-, whereType, -, -, rfl⟩ := callOperator_eq_ok hfiltered
      exact .inr ⟨rfl, _, _, _, _, rfl, rfl⟩
    · cases hpicked
  obtain ⟨rows, params, body, hexists, rfl⟩ | ⟨hnone, element, -, rfl⟩ :=
    projectionArgs?_eq_some hprojection
  · refine ⟨m, receiver, args, callType, name, type, rows, params, body, _, _, _, _, rfl, howner,
      hname, rfl, .inl ⟨source, ?_, hexists⟩⟩
    obtain hargs | ⟨hnone, -⟩ := hsource
    · exact hargs
    · rw [hexists] at hnone
      cases hnone
  · refine ⟨m, receiver, args, callType, name, type, source, _, .param ⟨"x", element⟩, _, _, _, _, rfl,
      howner, hname, rfl, .inr ⟨⟨_, rfl⟩, ?_⟩⟩
    exact hsource.imp (fun hargs => ⟨hargs, hnone⟩) fun hwhere => hwhere.2

/-- The rule keeps a tree pushed down. It leaves an access only on a row that is projected to. -/
theorem pushed_apply (hchildren : ∀ c ∈ n.children, Pushed S c)
    (hleft : ∀ target name type row, n = .member target name type →
      projectedPick? target = some row → S row)
    (h : rule.apply n = .ok r) : Pushed S r := by
  obtain ⟨hnone, rfl⟩ | hsome := Rule.apply_eq_ok.mp h
  · refine .node ?_ hchildren
    by_contra hread
    exact rule_ne_none (by simpa using hread) hnone
  · obtain ⟨m, receiver, args, callType, name, type, rows, params, body, _, _, _, _, rfl, howner,
      hname, rfl, hfrom⟩ := rule_eq_pick hsome
    -- The arguments of the call are pushed down, as it is no projection itself.
    have hcall : Pushed S (.call m receiver args callType) :=
      hchildren _ (by simp [Expr.children])
    have hselect : m.name ≠ "Select" := by
      intro h
      rw [h] at hname
      exact absurd hname (by decide)
    have hargs : ∀ a ∈ args, Pushed S a := by
      intro a ha
      refine hcall.children ?_ a (by simp [Expr.children, ha])
      simpa [method?] using hselect
    have hparts : Pushed S rows ∧ PushedBody S body ∧ (picks body = true → S body) := by
      obtain ⟨source, rfl, hprojection⟩ | ⟨⟨x, rfl⟩, hrows⟩ := hfrom
      · obtain ⟨hrows, hbody⟩ := (hargs source (by simp)).projection? hprojection
        refine ⟨hrows, hbody, fun hpicks => hleft _ _ _ body rfl ?_⟩
        simp [projectedPick?, howner, hname, hprojection, hpicks]
      · refine ⟨?_, .inl (.node rfl (by simp [Expr.children])), fun hpicks => ?_⟩
        · obtain ⟨rfl, -⟩ | ⟨source, predicate, _, _, rfl, rfl⟩ := hrows
          · exact hargs rows (by simp)
          · exact .node rfl (by simpa [Expr.children] using hargs)
        · cases hpicks
    obtain ⟨hrows, hbody, hbodyLeft⟩ := hparts
    refine .node rfl ?_
    simpa [Expr.children] using (hbody.access hbodyLeft name type).select hrows params _ _

/-- A node that has become a member access has been one. -/
theorem eq_member_of_setChildren {cs : List Expr} (hlength : cs.length = e.children.length)
    (h : e.setChildren cs = .member target name type) :
    ∃ t, e = .member t name type ∧ cs = [target] := by
  have hkind := kindName_setChildren e cs
  rw [h] at hkind
  cases e with
  | member t n ty =>
    obtain ⟨c, rfl⟩ := List.length_eq_one_iff.mp hlength
    cases h
    exact ⟨t, rfl, rfl⟩
  | _ => simp [kindName] at hkind

/-- A row from which the pass is left to read: some access reads a member of what becomes the pick from
a projection to this row. -/
def LeftBy (e row : Expr) : Prop :=
  ∃ target name type, .member target name type ∈ e.nodes ∧
    ∃ picked, run target = .ok picked ∧ projectedPick? picked = some row

theorem pushed_run (h : run e = .ok r) : Pushed (LeftBy e) r := by
  induction e using childInduction generalizing r with
  | step e ih =>
    obtain ⟨cs, hcs, happly⟩ := bottomUp_eq_ok.mp h
    have hlength : cs.length = e.children.length := hcs.length_eq.symm
    apply pushed_apply _ _ happly
    · rw [children_setChildren hlength]
      refine forall_mem_of_forall₂ hcs fun c hc d hd => ?_
      apply (ih c hc hd).mono
      rintro row ⟨target, name, type, hmem, hpicked⟩
      exact ⟨target, name, type, mem_nodes_of_mem_children hc hmem, hpicked⟩
    · intro target name type row hmember hrow
      obtain ⟨t, rfl, rfl⟩ := eq_member_of_setChildren hlength hmember
      have hrun : run t = .ok target := by simpa [Expr.children, run] using hcs
      exact ⟨t, name, type, self_mem_nodes _, target, hrun, hrow⟩

/-- What is a pick from a projection to a picked row. -/
theorem projectedPick?_eq_some {row : Expr} (h : projectedPick? e = some row) :
    ∃ m receiver source type rows params, e = .call m receiver [source] type ∧
      m.owner = Family.deferred.owner ∧ m.name ∈ Operator.elementPicking ∧
      projection? source = some (rows, params, row) ∧ picks row = true := by
  unfold projectedPick? at h
  split at h
  · rename_i m receiver source type
    split at h
    · rename_i hpicking
      obtain ⟨⟨rows, params, body⟩, hprojection, hbody⟩ := Option.bind_eq_some_iff.mp h
      simp only [Option.ite_none_right_eq_some, Option.some.injEq] at hbody
      obtain ⟨hpicks, rfl⟩ := hbody
      exact ⟨m, receiver, source, type, rows, params, rfl, hpicking.1, hpicking.2, hprojection,
        hpicks⟩
    · cases h
  · cases h

/-- A member of the pick from a projection to a picked row is left as a member of this row. -/
theorem member_row_mem_nodes {picked row : Expr} (hrun : run target = .ok picked)
    (hrow : projectedPick? picked = some row) (h : run (.member target name type) = .ok r) :
    .member row name type ∈ r.nodes ∧ readsPicked (.member row name type) = true := by
  obtain ⟨cs, hcs, happly⟩ := bottomUp_eq_ok.mp h
  obtain ⟨m, receiver, source, callType, rows, params, rfl, howner, hname, hprojection, hpicks⟩ :=
    projectedPick?_eq_some hrow
  have hchildren : cs = [.call m receiver [source] callType] := by
    obtain ⟨d, rfl⟩ := List.length_eq_one_iff.mp hcs.length_eq.symm
    have hd : run target = .ok d := by simpa [Expr.children, run] using hcs
    rw [hrun] at hd
    cases hd
    rfl
  subst hchildren
  obtain ⟨hnone, -⟩ | hsome := Rule.apply_eq_ok.mp happly
  · -- There is a projection to any member of these rows, so the rule applies or fails.
    exfalso
    obtain hnone | ⟨source', hsource', hnone⟩ := rule_eq_none howner hname hnone
    · cases hnone
    · cases hsource'
      simp [projectionArgs?, hprojection] at hnone
  · obtain ⟨_, _, _, _, _, _, rows', params', body, _, _, _, _, heq, -, -, rfl, hfrom⟩ :=
      rule_eq_pick hsome
    cases heq
    have hbody : body = row := by
      obtain ⟨source', hargs, hprojection'⟩ | ⟨-, ⟨hargs, hnone⟩ | ⟨_, _, _, _, hargs, -⟩⟩ := hfrom
      · cases hargs
        rw [hprojection] at hprojection'
        cases hprojection'
        rfl
      · cases hargs
        rw [hprojection] at hnone
        cases hnone
      · cases hargs
    subst hbody
    have haccess : access body name type = .member body name type := by
      cases body with
      | call => rfl
      | _ => cases hpicks
    rw [haccess]
    refine ⟨?_, hpicks⟩
    -- The access is the body of the lambda of the projection.
    have hlambda : .member body name type ∈
        (Expr.quote (.lambda params' (.member body name type))).nodes := by
      apply mem_nodes_of_mem_children List.mem_cons_self
      exact mem_nodes_of_mem_children List.mem_cons_self (self_mem_nodes _)
    apply mem_nodes_of_mem_children List.mem_cons_self
    exact mem_nodes_of_mem_children (List.mem_cons_of_mem _ List.mem_cons_self) hlambda

/-- The pushdown moves every access to a member of a picked row into the projection of the subquery.
What it leaves are accesses to the row that the projection goes to, where this row is picked by a
subquery again; if there is no such projection under an access, then no member of a picked row is read
anywhere any more. -/
theorem run_pushes_down (h : run e = .ok r) :
    Pushed (LeftBy e) r ∧
    ((∀ row, ¬ LeftBy e row) → r.Everywhere fun n => readsPicked n = false) ∧
    (∀ target name type picked row, e = .member target name type → run target = .ok picked →
      projectedPick? picked = some row →
        .member row name type ∈ r.nodes ∧ readsPicked (.member row name type) = true) := by
  refine ⟨pushed_run h, (pushed_run h).everywhere, ?_⟩
  rintro target name type picked row rfl hrun hrow
  exact member_row_mem_nodes hrun hrow h

def firstOf (query : Expr) (type : DataType) : Expr :=
  .call ⟨"Queryable", "First", [type]⟩ none [query] type

def selected (entity : String) (x : Param) (body : Expr) : Expr :=
  .call ⟨"Queryable", "Select", [.entity entity, body.type]⟩ none
    [.entitySet entity, .quote (.lambda [x] body)] (.queryable body.type)

def firstCustomer : Expr := firstOf (.entitySet "Customer") (.entity "Customer")

def nameOf (row : Expr) : Expr := .member row "Name" .utf8

/-- The name of the first customer becomes the first name of customers. -/
theorem name_of_first_customer_pushed_down :
    run (nameOf firstCustomer) = .ok (firstOf (selected "Customer" ⟨"x", .entity "Customer"⟩
        (nameOf (.param ⟨"x", .entity "Customer"⟩))) .utf8) ∧
      (firstOf (selected "Customer" ⟨"x", .entity "Customer"⟩
        (nameOf (.param ⟨"x", .entity "Customer"⟩))) .utf8).Everywhere
          fun n => readsPicked n = false := by
  have hrun : run (nameOf firstCustomer) = .ok (firstOf (selected "Customer"
      ⟨"x", .entity "Customer"⟩ (nameOf (.param ⟨"x", .entity "Customer"⟩))) .utf8) := by cbv
  obtain ⟨-, hcomplete, -⟩ := run_pushes_down hrun
  refine ⟨hrun, hcomplete ?_⟩
  rintro row ⟨target, name, type, hmem, picked, hpicked, hrow⟩
  have hnodes : (nameOf firstCustomer).nodes =
      [nameOf firstCustomer, firstCustomer, .entitySet "Customer"] := by cbv
  have hmember : .member target name type = nameOf firstCustomer := by
    rw [hnodes] at hmem
    simpa [firstCustomer, firstOf, entitySet] using hmem
  cases hmember
  have hsame : run firstCustomer = .ok firstCustomer := by cbv
  rw [hsame] at hpicked
  cases hpicked
  exact absurd hrow (by cbv; simp)

/-- For each order the first customer is picked, and then the first of these. Their name stays a member
of the first customer. -/
theorem name_of_projected_customer_left :
    run (nameOf (firstOf (selected "Order" ⟨"o", .entity "Order"⟩ firstCustomer)
        (.entity "Customer"))) =
      .ok (firstOf (selected "Order" ⟨"o", .entity "Order"⟩ (nameOf firstCustomer)) .utf8) ∧
    nameOf firstCustomer ∈
      (firstOf (selected "Order" ⟨"o", .entity "Order"⟩ (nameOf firstCustomer)) .utf8).nodes ∧
    readsPicked (nameOf firstCustomer) = true := by
  have hrun : run (nameOf (firstOf (selected "Order" ⟨"o", .entity "Order"⟩ firstCustomer)
      (.entity "Customer"))) =
        .ok (firstOf (selected "Order" ⟨"o", .entity "Order"⟩ (nameOf firstCustomer)) .utf8) := by
    cbv
  refine ⟨hrun, ?_, by cbv⟩
  apply mem_nodes_of_mem_children List.mem_cons_self
  apply mem_nodes_of_mem_children (List.mem_cons_of_mem _ List.mem_cons_self)
  apply mem_nodes_of_mem_children List.mem_cons_self
  exact mem_nodes_of_mem_children List.mem_cons_self (self_mem_nodes _)

end QueryLowering.Pass.MemberPushdown
