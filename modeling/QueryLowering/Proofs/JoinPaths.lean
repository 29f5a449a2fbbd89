import QueryLowering.Proofs.JoinChart
import QueryLowering.Sample

/-!
One join for each path. Each operator of a query over one entity puts the joins that wait around its
source, so in the end the joins of the tree are those along the prefixes of all paths in the query,
one for each of them.
-/

namespace QueryLowering.Pass.Navigation

open QueryLowering.Expr StateStep

variable {model : Model} {root : Entity} {s s' : State} {key : SourceKey} {a : Alias} {x : Expansion}

/-- The node is no access of a navigation, and if it is a join, then it has been recorded as what it
is. -/
def Recorded (model : Model) (s : State) (n : Expr) : Prop :=
  NoNavigation model n ∧ ∀ label outer inner outerKey innerKey,
    n = .navigationJoin label outer inner outerKey innerKey → Describes s label outerKey

theorem Clear.recorded {n : Expr} (h : Clear model n) (s : State) : Recorded model s n := by
  refine ⟨h.2, fun label outer inner outerKey innerKey heq => ?_⟩
  have hjoin := h.1
  rw [heq] at hjoin
  cases hjoin

theorem Recorded.mono {n : Expr} (h : Recorded model s n) (hgrows : Grows s s') :
    Recorded model s' n :=
  ⟨h.1, fun label outer inner outerKey innerKey heq =>
    (h.2 label outer inner outerKey innerKey heq).mono hgrows⟩

/-- The joins of a tree have the given aliases, each is recorded, and there is no access of a
navigation. -/
structure Joined (model : Model) (s : State) (attached : List Alias) (r : Expr) : Prop where
  rows : r.joinRows.Perm attached
  nodes : r.Everywhere (Recorded model s)

theorem joinRows_of_clear {e : Expr} (h : e.Everywhere (Clear model)) : e.joinRows = [] :=
  List.filterMap_eq_nil_iff.mpr fun n hn => (h n hn).1

namespace Joined

variable {attached : List Alias} {r : Expr}

theorem mono (h : Joined model s attached r) (hgrows : Grows s s') : Joined model s' attached r :=
  ⟨h.rows, h.nodes.mono fun _ hn => hn.mono hgrows⟩

theorem of_clear (s : State) (h : r.Everywhere (Clear model)) : Joined model s [] r := by
  refine ⟨?_, h.mono fun _ hn => hn.recorded s⟩
  rw [joinRows_of_clear h]

/-- An operator has the joins of its source, if there is none in its lambda. -/
theorem call (h : Joined model s attached r) {lambda : Expr}
    (hlambda : lambda.Everywhere (Clear model))
    (m : Method) (type : DataType) : Joined model s attached (.call m none [r, lambda] type) := by
  constructor
  · rw [joinRows_eq]
    change (r.joinRows ++ (lambda.joinRows ++ [])).Perm attached
    rw [joinRows_of_clear hlambda, List.append_nil, List.append_nil]
    exact h.rows
  · have hcall : Clear model (.call m none [r, lambda] type) := clear_of_not_member rfl nofun
    refine everywhere_iff.mpr ⟨hcall.recorded s, ?_⟩
    exact List.forall_mem_cons.mpr
      ⟨h.nodes, List.forall_mem_singleton.mpr (hlambda.mono fun _ hn => hn.recorded s)⟩

/-- A join that is put around a source is one more join. -/
theorem join (h : Joined model s attached r) {p : PendingJoin}
    (hclear : p.inner.Everywhere (Clear model) ∧ p.outerKey.Everywhere (Clear model) ∧
      p.innerKey.Everywhere (Clear model)) (hp : Describes s p.label p.outerKey) :
    Joined model s (attached ++ [p.label.row])
      (.navigationJoin p.label r p.inner p.outerKey p.innerKey) := by
  obtain ⟨hinner, houterKey, hinnerKey⟩ := hclear
  constructor
  · rw [joinRows_eq]
    change (p.label.row :: (r.joinRows ++ (p.inner.joinRows ++ (p.outerKey.joinRows ++
      (p.innerKey.joinRows ++ []))))).Perm (attached ++ [p.label.row])
    rw [joinRows_of_clear hinner, joinRows_of_clear houterKey, joinRows_of_clear hinnerKey]
    simp only [List.append_nil]
    exact (h.rows.cons _).trans (List.perm_append_singleton _ _).symm
  · refine everywhere_iff.mpr ⟨⟨?_, ?_⟩, ?_⟩
    · intro row name type entity heq
      cases heq
    · intro label outer inner outerKey innerKey heq
      cases heq
      exact hp
    · simp only [children, List.forall_mem_cons]
      exact ⟨h.nodes, hinner.mono fun _ hn => hn.recorded s,
        houterKey.mono fun _ hn => hn.recorded s, hinnerKey.mono fun _ hn => hn.recorded s,
        List.forall_mem_nil _⟩

theorem attachAll (h : Joined model s attached r) {joins : List PendingJoin}
    (hclear : ∀ p ∈ joins, p.inner.Everywhere (Clear model) ∧ p.outerKey.Everywhere (Clear model) ∧
      p.innerKey.Everywhere (Clear model)) (hjoins : ∀ p ∈ joins, Describes s p.label p.outerKey) :
    Joined model s (attached ++ joins.map fun p => p.label.row) (Navigation.attachAll r joins) := by
  unfold Navigation.attachAll
  induction joins generalizing r attached with
  | nil =>
    rw [List.map_nil, List.append_nil]
    exact h
  | cons p joins ih =>
    rw [List.map_cons, List.append_cons]
    apply ih (h.join (hclear p List.mem_cons_self) (hjoins p List.mem_cons_self))
    · exact fun q hq => hclear q (List.mem_cons_of_mem _ hq)
    · exact fun q hq => hjoins q (List.mem_cons_of_mem _ hq)

end Joined

/-- After an operator, the joins that waited are around its source. -/
theorem Charted.attach {attached : List Alias} {ps : List (List String)}
    (hx : Charted model root attached x ps) :
    Charted model root (attached ++ x.pending.map fun p => p.label.row) ⟨x.state, []⟩ ps := by
  refine ⟨?_, hx.rows, hx.anchors, hx.keys, hx.paths, ?_, List.forall_mem_nil _,
    List.forall_mem_nil _⟩
  · have htidy := hx.tidy.filter fun _ => false
    rw [List.filter_false] at htidy
    exact htidy
  · rw [List.map_nil, List.append_nil]
    exact hx.labels

theorem Charted.addRoot {attached : List Alias} {ps : List (List String)}
    (hx : Charted model root attached x ps) (element : DataType) :
    Charted model root attached { x with state := (x.state.addRoot element).2 } ps := by
  refine ⟨hx.tidy.addRoot element, ?_, hx.anchors, hx.keys, ?_, hx.labels, hx.clear, ?_⟩
  · have hrows := hx.rows
    change (x.state.roots ++ [element])[0]? = _
    change x.state.roots[0]? = _ at hrows
    rw [List.getElem?_append_left (List.getElem?_eq_some_iff.mp hrows).1]
    exact hrows
  · exact hx.paths.imp fun e q ⟨entity, he⟩ => ⟨entity, he.mono (.addRoot _ _)⟩
  · exact fun p hp => (hx.described p hp).mono (.addRoot _ _)

section Operators

variable {attached : List Alias} {ps : List (List String)} {source body r : Expr} {p : Param}
  {name : String}

/-- The operators of a query, which filter, order or project by one lambda. -/
theorem facts_of_operator (hname : name ∈ "Select" :: chainable) :
    (Operator.find? "Queryable" name [.queryable, .quotedLambda 1]).isSome = true ∧
      boundSource? name 1 0 = some 0 ∧ name ≠ "AsQueryable" ∧
      (name ∈ chainable → name ∈ Operator.rowPreserving) := by
  have hall : ∀ name ∈ "Select" :: chainable,
      (Operator.find? "Queryable" name [.queryable, .quotedLambda 1]).isSome = true ∧
        boundSource? name 1 0 = some 0 ∧ name ≠ "AsQueryable" ∧
        (name ∈ chainable → name ∈ Operator.rowPreserving) := by decide
  exact hall name hname

/-- The lambda of an operator is expanded with its parameter over the rows of the source. -/
theorem exists_gives_lambda (hmodel : Sensible model root) (hname : name ∈ "Select" :: chainable)
    (hp : p.type = .entity root.name) (hbody : IsBody model root p body)
    (hx : Charted model root attached x ps) :
    ∃ lambda x' ps', (expandArg model [] name [.root 0] 1 (.quote (.lambda [p] body)) none).Gives x
        lambda x' ∧
      lambda.Everywhere (Clear model) ∧
      Visits model root attached x x' ps ps' body.navigationPaths := by
  have hscope : Scope.source? (Scope.bind [] [p] fun i => (boundSource? name 1 i).bind
      ([SourceKey.root 0][·]?)) p = some (.root 0) := by
    unfold Scope.source? Scope.bind
    simp [(facts_of_operator hname).2.1]
  obtain ⟨body', x', ps', hbody', hclear, hvisits⟩ :=
    reads_body hmodel hscope hp hbody attached x ps hx
  refine ⟨.quote (.lambda [p] body'), x', ps', ?_, ?_, hvisits⟩
  · refine gives_bind.mpr ⟨(.quote (.lambda [p] body'), none), x', ?_, gives_pure.mpr ⟨rfl, rfl⟩⟩
    rw [expand]
    refine gives_bind.mpr ⟨(.lambda [p] body', none), x', ?_, gives_pure.mpr ⟨rfl, rfl⟩⟩
    rw [expand]
    exact gives_bind.mpr ⟨(body', none), x', hbody', gives_pure.mpr ⟨rfl, rfl⟩⟩
  · exact clear_quote (clear_lambda [p] hclear)

/-- All that waits is below the one root, so it is put around the source. -/
theorem Charted.gives_attach (hx : Charted model root attached x ps) (r : Expr) :
    (Navigation.attach (.root 0) r).Gives x (Navigation.attachAll r x.pending) ⟨x.state, []⟩ := by
  have hanchor : ∀ j ∈ x.pending, (j.anchor == .root 0) = true := by
    intro j hj
    obtain ⟨e, he, -, hanchor⟩ := (hx.tidy.pending j hj).recorded
    rw [← hanchor, hx.anchors e he]
    exact beq_self_eq_true _
  have hready : x.pending.filter (fun j => j.anchor == .root 0) = x.pending :=
    List.filter_eq_self.mpr hanchor
  have hrest : x.pending.filter (fun j => !(j.anchor == .root 0)) = [] := by
    refine List.filter_eq_nil_iff.mpr fun j hj => ?_
    rw [hanchor j hj]
    exact Bool.false_ne_true
  rw [gives_attach_root, hready, hrest]
  exact ⟨rfl, rfl⟩

/-- The operator is rebuilt; if it filters or orders, it has the rows of its source. -/
theorem exists_gives_rebuild_operator (typeArgs : List DataType)
    (hname : name ∈ "Select" :: chainable) (hx : Charted model root attached x ps)
    (args args' : List Expr)
    (hlength : args'.length = args.length) (type : DataType) :
    ∃ key x', (rebuild (.call ⟨"Queryable", name, typeArgs⟩ none args type) name args'
        (some (.root 0))).Gives x (.call ⟨"Queryable", name, typeArgs⟩ none args' type, key) x' ∧
      (name ∈ chainable → key = some (.root 0)) ∧ Charted model root attached x' ps ∧
      x'.pending = x.pending ∧ Grows x.state x'.state := by
  obtain ⟨-, -, hconverts, hkeeps⟩ := facts_of_operator hname
  obtain ⟨key, x', hkey, hfacts⟩ : ∃ key x', (resultKey name (some (.root 0))
        (.call ⟨"Queryable", name, typeArgs⟩ none args' type)).Gives x key x' ∧
      (name ∈ chainable → key = some (.root 0)) ∧ Charted model root attached x' ps ∧
      x'.pending = x.pending ∧ Grows x.state x'.state := by
    -- Only a projection can have rows of its own, and then there is one root more.
    unfold resultKey
    split
    · exact ⟨_, x, gives_pure.mpr ⟨rfl, rfl⟩, fun _ => rfl, hx, rfl, .refl _⟩
    · rename_i hrows
      have hno : name ∈ chainable → False := fun hchain => hrows (hkeeps hchain)
      split
      · exact ⟨_, _, gives_map.mpr ⟨_, gives_modifyGet.mpr rfl, rfl⟩, fun h => (hno h).elim,
          hx.addRoot _, rfl, .addRoot _ _⟩
      · exact ⟨_, x, gives_pure.mpr ⟨rfl, rfl⟩, fun h => (hno h).elim, hx, rfl, .refl _⟩
  refine ⟨key, x', ?_, hfacts⟩
  have hfinish : (rebuild.finish (.call ⟨"Queryable", name, typeArgs⟩ none args type) name args'
      (some (.root 0))).Gives x (.call ⟨"Queryable", name, typeArgs⟩ none args' type, key) x' := by
    unfold rebuild.finish
    refine gives_bind.mpr ⟨_, x, gives_ofExcept.mpr ⟨if_pos hlength, rfl⟩, ?_⟩
    exact gives_bind.mpr ⟨key, x', hkey, gives_pure.mpr ⟨rfl, rfl⟩⟩
  unfold rebuild
  split
  · rw [if_neg fun h => hconverts h.1]
    exact hfinish
  · exact hfinish

/-- One more operator on a source: the rows along the paths in its lambda are visited, and the joins
that are new are put around the source. -/
theorem exists_gives_operator (hmodel : Sensible model root) (hname : name ∈ "Select" :: chainable)
    (hshape : ArgShape.of source = .queryable) (hp : p.type = .entity root.name)
    (hbody : IsBody model root p body) {t : Expansion}
    (hsource : (expandSource model [] source).Gives x (some (r, .root 0)) t)
    (ht : Charted model root attached t ps) (hr : Joined model t.state attached r)
    (typeArgs : List DataType) (type : DataType) :
    ∃ r' key x' ps' attached',
      (expand model [] (fun _ => none) (.call ⟨"Queryable", name, typeArgs⟩ none
        [source, .quote (.lambda [p] body)] type)).Gives x (r', key) x' ∧
      (name ∈ chainable → key = some (.root 0)) ∧ x'.pending = [] ∧
      Charted model root attached' x' ps' ∧ Joined model x'.state attached' r' ∧
      ∀ q, q ∈ ps' ↔ q ∈ ps ∨ q ≠ [] ∧ ∃ path ∈ body.navigationPaths, q <+: path := by
  obtain ⟨hfind, -⟩ := facts_of_operator hname
  -- The lambda visits rows while the source is left alone, then all that waits goes around it.
  obtain ⟨lambda, u, ps', hlambda, hclear, hvisits⟩ := exists_gives_lambda hmodel hname hp hbody ht
  obtain ⟨key, x', hrebuild, hkey, hx', hpending, hgrows⟩ :=
    exists_gives_rebuild_operator typeArgs hname hvisits.charted.attach
      [source, .quote (.lambda [p] body)] [attachAll r u.pending, lambda] rfl type
  have hjoined := (hr.mono hvisits.grows).attachAll hvisits.charted.clear hvisits.charted.described
  have hcall := hjoined.call hclear ⟨"Queryable", name, typeArgs⟩ type
  refine ⟨_, key, x', ps', _, ?_, hkey, hpending, hx', hcall.mono hgrows, hvisits.mem⟩
  have hop : (Operator.findFor? ⟨"Queryable", name, typeArgs⟩
      [source, .quote (.lambda [p] body)]).isSome = true := by
    unfold Operator.findFor?
    rw [List.map_cons, hshape]
    exact hfind
  rw [expand_operator hop]
  -- The steps in turn: the sources, the arguments, the joins around them, the call.
  have hsources : ([source, .quote (.lambda [p] body)].mapM (expandSource model [])).Gives x
      [some (r, .root 0), none] t := gives_mapM_pair hsource (gives_pure.mpr ⟨rfl, rfl⟩)
  refine gives_bind.mpr ⟨_, t, hsources, ?_⟩
  refine gives_bind.mpr ⟨[r, lambda], u, gives_mapM_pair (gives_pure.mpr ⟨rfl, rfl⟩) hlambda, ?_⟩
  refine gives_bind.mpr ⟨[attachAll r u.pending, lambda], ⟨u.state, []⟩, ?_, hrebuild⟩
  exact gives_mapM_pair (hvisits.charted.gives_attach r) (gives_pure.mpr ⟨rfl, rfl⟩)

theorem gives_expand_rows (x : Expansion) :
    (expand model [] (fun _ => none) (.entitySet root.name)).Gives x (.entitySet root.name, none) x :=
  gives_expand_leaf (by simp [kindName, entitySet]) rfl x

/-- All rows of an entity are a root without joins. -/
theorem gives_expandSource_rows (hroots : s.roots = []) :
    (expandSource model [] (.entitySet root.name)).Gives { state := s }
      (some (.entitySet root.name, .root 0))
      { state := { s with roots := [.entity root.name] } } := by
  have hroot : (updateState fun s => s.addRoot (.entity root.name)).Gives { state := s } (.root 0)
      { state := { s with roots := [.entity root.name] } } := by
    refine gives_modifyGet.mpr ?_
    simp [State.addRoot, hroots]
  unfold expandSource
  rw [if_pos (by rfl)]
  refine gives_bind.mpr ⟨_, _, gives_expand_rows _, gives_bind.mpr ⟨_, _, ?_,
    gives_pure.mpr ⟨rfl, rfl⟩⟩⟩
  exact gives_bind.mpr ⟨_, _, hroot, gives_pure.mpr ⟨rfl, rfl⟩⟩

theorem charted_rows (hjoins : s.joins = []) :
    Charted model root [] { state := { s with roots := [.entity root.name] } } [] := by
  refine ⟨.of_no_joins hjoins, rfl, ?_, ?_, ?_, ?_, List.forall_mem_nil _, List.forall_mem_nil _⟩
  · rw [hjoins]
    exact List.forall_mem_nil _
  · rw [hjoins]
    exact .nil
  · rw [hjoins]
    exact .nil
  · rw [hjoins]
    rfl

/-- A chain of operators is expanded by visiting the rows along the paths in all of its lambdas. -/
theorem exists_gives_chain (hmodel : Sensible model root) (hjoins : s.joins = [])
    (hroots : s.roots = []) {e : Expr} {bodies : List Expr} (he : IsChain model root e bodies) :
    ArgShape.of e = .queryable ∧ ∃ r x' ps attached,
      (expandSource model [] e).Gives { state := s } (some (r, .root 0)) x' ∧
      Charted model root attached x' ps ∧ Joined model x'.state attached r ∧
      ∀ q, q ∈ ps ↔ q ∈ pathPrefixes bodies := by
  induction he with
  | rows =>
    refine ⟨rfl, _, _, [], [], gives_expandSource_rows hroots, charted_rows hjoins,
      .of_clear _ (everywhere_of_leaf rfl (clear_of_leaf rfl rfl)), fun q => ?_⟩
    simp [mem_pathPrefixes]
  | @apply source body bodies p name typeArgs _ hname hp hbody ih =>
    obtain ⟨hshape, r, t, ps, attached, hsource, ht, hr, hmem⟩ := ih
    obtain ⟨r', key, x', ps', attached', hgives, hkey, -, hx', hr', hmem'⟩ :=
      exists_gives_operator hmodel (List.mem_cons_of_mem _ hname) hshape hp hbody hsource ht hr
        typeArgs (.queryable (.entity root.name))
    cases hkey hname
    refine ⟨rfl, r', x', ps', attached', ?_, hx', hr', fun q => ?_⟩
    · unfold expandSource
      rw [if_pos (by rfl)]
      exact gives_bind.mpr ⟨_, x', hgives, gives_bind.mpr ⟨_, x', gives_pure.mpr ⟨rfl, rfl⟩,
        gives_pure.mpr ⟨rfl, rfl⟩⟩⟩
    · rw [hmem', hmem, mem_pathPrefixes_append]

end Operators

/-- The joins of a tree are those along the prefixes of the paths in some lambdas, one for each of
them; no other join has been recorded, and no access of a navigation is left. -/
structure OneJoinPerPath (model : Model) (bodies : List Expr) (r : Expr) (s : State) : Prop where
  distinct : r.joinRows.Nodup
  path : ∀ a, r.HasJoin a → ∃ q ∈ pathPrefixes bodies, ∀ q', r.Follows a q' ↔ q' = q
  join : ∀ q ∈ pathPrefixes bodies, ∃! a, r.Follows a q
  count : s.joinCount = (pathPrefixes bodies).length
  scalar : r.Everywhere (NoNavigation model)

section Final

variable {attached : List Alias} {ps : List (List String)} {r : Expr} {bodies : List Expr}

theorem rowAlias?_eq_none (h : rowAlias? key = none) : ∃ i, key = .root i := by
  cases key with
  | root i => exact ⟨i, rfl⟩
  | join a => cases h

theorem rowAlias?_eq_some (h : rowAlias? key = some a) : key = .join a := by
  cases key with
  | root i => cases h
  | join b =>
    cases h
    rfl

/-- Every recorded join leads one step further than what it starts from. -/
theorem Charted.exists_leads (hx : Charted model root attached x ps)
    {e : (SourceKey × String) × Join} (he : e ∈ x.state.joins) :
    ∃ entity path target, Leads model root x.state e.1.1 entity path ∧
      Leads model root x.state (.join e.2.row) target (path ++ [e.1.2]) := by
  obtain ⟨q, -, target, hleads⟩ := exists_mem_of_forall₂ hx.paths he
  obtain ⟨entity, path, n, hkey, -, -, -, hname, rfl⟩ := hleads.exists_source hx.tidy.distinct he
  refine ⟨entity, path, target, hkey, ?_⟩
  rw [hname]
  exact hleads

/-- The path that the joins of the tree follow is the one that the recorded joins lead along. -/
theorem follows_iff_leads (hx : Charted model root attached x ps)
    (hr : Joined model x.state attached r)
    (hpending : x.pending = []) {q : List String} :
    r.Follows a q ↔ ∃ entity, Leads model root x.state (.join a) entity q := by
  constructor
  · -- Each join of the tree is recorded with the source that its outer key starts from.
    intro h
    induction h with
    | @first label outer inner outerKey innerKey hmem hstart =>
      obtain ⟨e, he, hrow, hname, hkey⟩ := (hr.nodes _ hmem).2 _ _ _ _ _ rfl
      obtain ⟨entity, path, target, hleads, hstep⟩ := hx.exists_leads he
      obtain ⟨i, hroot⟩ := rowAlias?_eq_none (hkey.symm.trans hstart)
      rw [hroot] at hleads
      cases hleads
      rw [hrow, hname] at hstep
      exact ⟨target, hstep⟩
    | @next label outer inner outerKey innerKey b path hmem hstart _ ih =>
      obtain ⟨e, he, hrow, hname, hkey⟩ := (hr.nodes _ hmem).2 _ _ _ _ _ rfl
      obtain ⟨entity, path', target, hleads, hstep⟩ := hx.exists_leads he
      obtain ⟨entity', hleads'⟩ := ih
      rw [rowAlias?_eq_some (hkey.symm.trans hstart)] at hleads
      obtain ⟨-, rfl⟩ := hleads.path_unique hx.tidy.distinct hleads'
      rw [hrow, hname] at hstep
      exact ⟨target, hstep⟩
  · rintro ⟨entity, h⟩
    have hfollows : ∀ key entity q, Leads model root x.state key entity q →
        ∀ a, key = .join a → r.Follows a q := by
      intro key entity q h
      induction h with
      | root =>
        intro a heq
        cases heq
      | @join key entity target path n j hkey hj hn htarget hname ih =>
        intro a heq
        cases heq
        -- The join is in the tree, and what is recorded of it there is this entry.
        have hrow : j.row ∈ r.joinRows := by
          rw [hr.rows.mem_iff]
          have hlabels := hx.labels
          rw [hpending, List.map_nil, List.append_nil] at hlabels
          rw [← hlabels]
          exact List.mem_map_of_mem (f := fun e : (SourceKey × String) × Join => e.2.row) hj
        obtain ⟨node, hnode, hjoin⟩ := mem_joinRows.mp hrow
        cases node with
        | navigationJoin label outer inner outerKey innerKey =>
          obtain ⟨e, he, hsame, hname, hstart⟩ := (hr.nodes _ hnode).2 _ _ _ _ _ rfl
          have hlabel : label.row = j.row := Option.some.inj hjoin
          have hentry : e = ((key, n.name), j) :=
            List.inj_on_of_nodup_map hx.tidy.distinct he hj (hsame.trans hlabel)
          subst hentry
          rw [← hlabel]
          change n.name = label.navigation at hname
          rw [hname]
          cases key with
          | root i =>
            cases hkey
            exact .first hnode hstart
          | join b => exact .next hnode hstart (ih b rfl)
        | _ => cases hjoin
    exact hfollows _ _ _ h a rfl

/-- Joins with sources or navigations of their own lead along paths of their own. -/
theorem Charted.nodup (hx : Charted model root attached x ps) : ps.Nodup := by
  have hall : ∀ (js : JoinTable) (qs : List (List String)), (∀ e ∈ js, e ∈ x.state.joins) →
      js.Nodup →
      List.Forall₂ (fun e q => ∃ entity, Leads model root x.state (.join e.2.row) entity q) js qs →
        qs.Nodup := by
    intro js qs hjs hnodup h
    induction h with
    | nil => exact .nil
    | @cons e q js qs he hrest ih =>
      obtain ⟨hnew, hnodup⟩ := List.nodup_cons.mp hnodup
      refine List.nodup_cons.mpr ⟨fun hq => hnew ?_,
        ih (fun f hf => hjs f (List.mem_cons_of_mem _ hf)) hnodup⟩
      -- Another join along the same path would be this one.
      obtain ⟨f, hf, entity', hleads'⟩ := exists_mem_of_forall₂ (List.Forall₂.flip hrest) hq
      obtain ⟨entity, hleads⟩ := he
      have hrow := SourceKey.join.inj (hleads.key_unique hx.keys hleads')
      have hsame : e = f := List.inj_on_of_nodup_map hx.tidy.distinct (hjs e List.mem_cons_self)
        (hjs f (List.mem_cons_of_mem _ hf)) hrow
      rw [hsame]
      exact hf
  exact hall _ _ (fun e he => he) (hx.keys.of_map _) hx.paths

theorem oneJoinPerPath_of_charted (hx : Charted model root attached x ps)
    (hr : Joined model x.state attached r) (hpending : x.pending = [])
    (hmem : ∀ q, q ∈ ps ↔ q ∈ pathPrefixes bodies) :
    OneJoinPerPath model bodies r x.state := by
  have hlabels : x.state.joins.map (fun e => e.2.row) = attached := by
    have hlabels := hx.labels
    rw [hpending, List.map_nil, List.append_nil] at hlabels
    exact hlabels
  refine ⟨?_, fun a ha => ?_, fun q hq => ?_, ?_, hr.nodes.mono fun _ hn => hn.1⟩
  · rw [hr.rows.nodup_iff, ← hlabels]
    exact hx.tidy.distinct
  · rw [← mem_joinRows, hr.rows.mem_iff, ← hlabels] at ha
    obtain ⟨e, he, rfl⟩ := List.mem_map.mp ha
    -- The chart has a path for each join, and no other path leads to it.
    obtain ⟨q, hq, entity, hleads⟩ := exists_mem_of_forall₂ hx.paths he
    refine ⟨q, (hmem q).mp hq, fun q' => ?_⟩
    rw [follows_iff_leads hx hr hpending]
    constructor
    · rintro ⟨entity', hleads'⟩
      exact (hleads'.path_unique hx.tidy.distinct hleads).2
    · rintro rfl
      exact ⟨entity, hleads⟩
  · obtain ⟨e, he, entity, hleads⟩ :=
      exists_mem_of_forall₂ (List.Forall₂.flip hx.paths) ((hmem q).mpr hq)
    refine ⟨e.2.row, (follows_iff_leads hx hr hpending).mpr ⟨entity, hleads⟩, fun a ha => ?_⟩
    obtain ⟨entity', hleads'⟩ := (follows_iff_leads hx hr hpending).mp ha
    exact SourceKey.join.inj (hleads'.key_unique hx.keys hleads)
  · -- The paths of the chart and the prefixes are the same, and neither list repeats one.
    have hperm : ps.Perm (pathPrefixes bodies) :=
      (List.perm_ext_iff_of_nodup hx.nodup (List.nodup_dedup _)).mpr hmem
    calc x.state.joinCount = x.state.joins.length := rfl
      _ = ps.length := hx.paths.length_eq
      _ = (pathPrefixes bodies).length := hperm.length_eq

end Final

/-- A query that filters, orders and projects the rows of one entity is always expanded, and then it
has one join for each path of navigations. -/
theorem one_join_for_each_path {entities : List Entity} {ctx : Context} {root : Entity} {e : Expr}
    {bodies : List Expr} {s : State} (hmodel : Model.ofEntities entities = .ok ctx.model)
    (hnames : Unambiguous ctx.model) (hroot : ctx.model.entity? root.name = some root)
    (hquery : IsQuery ctx.model root e bodies) (hjoins : s.joins = []) (hroots : s.roots = []) :
    ∃ r s', (navigation.run ctx e).Gives s r s' ∧ OneJoinPerPath ctx.model bodies r s' := by
  have hsensible : Sensible ctx.model root :=
    ⟨Model.validEntity_of_ofEntities hmodel, hnames, hroot⟩
  -- One more operator at the end of a chain.
  have hoperator : ∀ {source body : Expr} {before : List Expr} {p : Param} {name : String}
      (typeArgs : List DataType) (type : DataType), name ∈ "Select" :: chainable →
      IsChain ctx.model root source before → p.type = .entity root.name →
      IsBody ctx.model root p body →
        ∃ r s', (navigation.run ctx (.call ⟨"Queryable", name, typeArgs⟩ none
          [source, .quote (.lambda [p] body)] type)).Gives s r s' ∧
            OneJoinPerPath ctx.model (before ++ [body]) r s' := by
    intro source body before p name typeArgs type hname hchain hp hbody
    obtain ⟨hshape, r, t, ps, attached, hsource, ht, hr, hmem⟩ :=
      exists_gives_chain hsensible hjoins hroots hchain
    obtain ⟨r', key, x', ps', attached', hgives, -, hpending, hx', hr', hmem'⟩ :=
      exists_gives_operator hsensible hname hshape hp hbody hsource ht hr typeArgs type
    refine ⟨r', x'.state, gives_run.mpr ⟨key, x', hgives, hpending, rfl⟩,
      oneJoinPerPath_of_charted hx' hr' hpending fun q => ?_⟩
    rw [hmem', hmem, mem_pathPrefixes_append]
  cases hquery with
  | chain hchain =>
    cases hchain with
    | rows =>
      have hcharted : Charted ctx.model root []
          { state := { s with roots := [.entity root.name] } } [] := charted_rows hjoins
      have hjoined : Joined ctx.model { s with roots := [.entity root.name] } []
          (.entitySet root.name) := .of_clear _ (everywhere_of_leaf rfl (clear_of_leaf rfl rfl))
      have hrows : OneJoinPerPath ctx.model [] (.entitySet root.name)
          { s with roots := [.entity root.name] } :=
        oneJoinPerPath_of_charted hcharted hjoined rfl fun q => by simp [mem_pathPrefixes]
      exact ⟨.entitySet root.name, s,
        gives_run.mpr ⟨none, { state := s }, gives_expand_rows _, rfl, rfl⟩,
        hrows.distinct, hrows.path, hrows.join, hrows.count, hrows.scalar⟩
    | apply typeArgs hchain hname hp hbody =>
      exact hoperator typeArgs _ (List.mem_cons_of_mem _ hname) hchain hp hbody
  | select typeArgs type hchain hp hbody =>
    exact hoperator typeArgs type List.mem_cons_self hchain hp hbody

/-- An order line, and the rows that its navigations lead to. -/
def line : Param := ⟨"l", .entity "OrderLine"⟩

def lineOrder : Expr := .member (.param line) "Order" (.entity "Order")

def lineCustomer : Expr := .member lineOrder "Customer" (.entity "Customer")

def lineAddress : Expr := .member lineCustomer "Address" (.entity "Address")

/-- Does the customer of a line have another city than that of their address? -/
def cityDiffers : Expr :=
  .binary .notEq (.member lineCustomer "City" .utf8) (.member lineAddress "City" .utf8)

def lineTotal : Expr := .member lineOrder "Total" .float64

/-- Where a line is sent to. -/
def lineCity : Expr :=
  .object [("sku", .member (.param line) "Sku" .utf8), ("city", .member lineAddress "City" .utf8)]

/-- The lines that are sent to another city, by the totals of their orders. -/
def linesByTotal : Expr :=
  let lines : Expr := .call ⟨"Queryable", "Where", []⟩ none
    [.entitySet "OrderLine", .quote (.lambda [line] cityDiffers)] (.queryable (.entity "OrderLine"))
  let ordered : Expr := .call ⟨"Queryable", "OrderBy", []⟩ none
    [lines, .quote (.lambda [line] lineTotal)] (.queryable (.entity "OrderLine"))
  .call ⟨"Queryable", "Select", []⟩ none [ordered, .quote (.lambda [line] lineCity)]
    (.queryable lineCity.type)

theorem one_join_for_each_path_of_lines :
    Model.ofEntities [Sample.shipment, Sample.orderLine, Sample.order, Sample.customer,
        Sample.address] = .ok Sample.model ∧
      IsQuery Sample.model Sample.orderLine linesByTotal [cityDiffers, lineTotal, lineCity] ∧
      pathPrefixes [cityDiffers, lineTotal, lineCity] =
        [["Order", "Customer", "Address"], ["Order", "Customer"], ["Order"]] ∧
      ∃ r s', (navigation.run ⟨Sample.model, Sample.catalog⟩ linesByTotal).Gives .fresh r s' ∧
        OneJoinPerPath Sample.model [cityDiffers, lineTotal, lineCity] r s' := by
  have hmodel : Model.ofEntities [Sample.shipment, Sample.orderLine, Sample.order, Sample.customer,
      Sample.address] = .ok Sample.model := by cbv
  have hnames : Unambiguous Sample.model := by
    unfold Unambiguous
    decide
  -- The rows of the query.
  have hline : IsRow Sample.model Sample.orderLine line (.param line) Sample.orderLine [] := .param
  have horder : IsRow Sample.model Sample.orderLine line lineOrder Sample.order ["Order"] :=
    .navigate (n := ⟨"Order", "Order", .one, true, [⟨"OrderId", "Id"⟩], true⟩) _ hline rfl rfl rfl
  have hcustomer : IsRow Sample.model Sample.orderLine line lineCustomer Sample.customer
      ["Order", "Customer"] :=
    .navigate (n := ⟨"Customer", "Customer", .one, true, [⟨"CustomerId", "Id"⟩], true⟩) _ horder
      rfl rfl rfl
  have haddress : IsRow Sample.model Sample.orderLine line lineAddress Sample.address
      ["Order", "Customer", "Address"] :=
    .navigate (n := ⟨"Address", "Address", .one, false, [⟨"AddressId", "Id"⟩], true⟩) _ hcustomer
      rfl rfl rfl
  -- The bodies of its lambdas.
  have hcity : IsBody Sample.model Sample.orderLine line (.member lineAddress "City" .utf8) :=
    .property (q := ⟨"City", .utf8, false⟩) _ haddress (by decide)
  have hdiffers : IsBody Sample.model Sample.orderLine line cityDiffers := by
    refine .compound rfl (List.forall_mem_cons.mpr ⟨?_, List.forall_mem_singleton.mpr hcity⟩)
    exact .property (q := ⟨"City", .utf8, true⟩) _ hcustomer (by decide)
  have htotal : IsBody Sample.model Sample.orderLine line lineTotal :=
    .property (q := ⟨"Total", .float64, false⟩) _ horder (by decide)
  have hsent : IsBody Sample.model Sample.orderLine line lineCity := by
    refine .compound rfl (List.forall_mem_cons.mpr ⟨?_, List.forall_mem_singleton.mpr hcity⟩)
    exact .property (q := ⟨"Sku", .utf8, false⟩) _ hline (by decide)
  have hquery : IsQuery Sample.model Sample.orderLine linesByTotal
      [cityDiffers, lineTotal, lineCity] :=
    .select [] _ (.apply [] (.apply [] .rows (by decide) rfl hdiffers) (by decide) rfl htotal) rfl
      hsent
  have hread : [cityDiffers, lineTotal, lineCity].flatMap navigationPaths =
      [["Order", "Customer"], ["Order"], [], ["Order", "Customer", "Address"],
        ["Order", "Customer"], ["Order"], [], ["Order"], [], [],
        ["Order", "Customer", "Address"], ["Order", "Customer"], ["Order"], []] := by cbv
  have hpaths : pathPrefixes [cityDiffers, lineTotal, lineCity] =
      [["Order", "Customer", "Address"], ["Order", "Customer"], ["Order"]] := by
    unfold pathPrefixes
    rw [hread]
    decide
  have hexpanded : ∃ r s',
      (navigation.run ⟨Sample.model, Sample.catalog⟩ linesByTotal).Gives .fresh r s' ∧
        OneJoinPerPath Sample.model [cityDiffers, lineTotal, lineCity] r s' :=
    one_join_for_each_path hmodel hnames rfl hquery rfl rfl
  exact ⟨hmodel, hquery, hpaths, hexpanded⟩

end QueryLowering.Pass.Navigation
