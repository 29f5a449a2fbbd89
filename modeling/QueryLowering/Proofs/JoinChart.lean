import QueryLowering.Proofs.RowPaths
import QueryLowering.Proofs.ValidModel

/-!
The chart of an expansion. While lambdas over the rows of one entity are expanded, the joins that have
been recorded are those along a list of paths, in the order in which the paths were met: a row that is
met again is found by its path, and a new one leads one step further than the row it is reached from.
-/

namespace QueryLowering.Pass.Navigation

open QueryLowering.Expr StateStep

section Paths

variable (model : Model) (root : Entity)

/-- The recorded joins lead from the rows of the root to a source with rows of an entity along a
path. -/
inductive Leads (s : State) : SourceKey → Entity → List String → Prop
  | root : Leads s (.root 0) root []
  | join {key : SourceKey} {entity target : Entity} {path : List String}
      {n : QueryLowering.Navigation} {j : Join} :
      Leads s key entity path → ((key, n.name), j) ∈ s.joins → entity.navigation? n.name = some n →
        model.entity? n.target = some target → j.target = target.name →
          Leads s (.join j.row) target (path ++ [n.name])

/-- The node is no access of a navigation. -/
def NoNavigation (n : Expr) : Prop :=
  ∀ row name type entity, n = .member row name type → row.type = .entity entity →
    model.navigation? entity name = none

/-- The node is neither a join nor an access of a navigation. -/
def Clear (n : Expr) : Prop := n.joinAlias? = none ∧ NoNavigation model n

end Paths

/-- The alias of a source that is a joined row. -/
def rowAlias? : SourceKey → Option Alias
  | .root _ => none
  | .join a => some a

/-- A join with the label and the outer key has been recorded. -/
def Describes (s : State) (label : JoinLabel) (outerKey : Expr) : Prop :=
  ∃ e ∈ s.joins, e.2.row = label.row ∧ e.1.2 = label.navigation ∧
    outerKey.start? = rowAlias? e.1.1

variable {model : Model} {root entity entity' target : Entity} {s s' : State}
  {key key' : SourceKey} {path path' : List String} {a : Alias} {x x' : Expansion}
  {n : QueryLowering.Navigation} {j : Join}

namespace Leads

theorem mono (h : Leads model root s key entity path) (hgrows : Grows s s') :
    Leads model root s' key entity path := by
  induction h with
  | root => exact .root
  | join _ hj hn htarget hname ih => exact .join ih (hgrows.joins.subset hj) hn htarget hname

/-- What leads to a joined row leads to the source of its join first, if joins have aliases of their
own. -/
theorem exists_source (hdistinct : (s.joins.map fun e => e.2.row).Nodup) {name : String}
    (hj : ((key, name), j) ∈ s.joins) (h : Leads model root s (.join j.row) target path) :
    ∃ entity start n, Leads model root s key entity start ∧ entity.navigation? n.name = some n ∧
      model.entity? n.target = some target ∧ j.target = target.name ∧ name = n.name ∧
      path = start ++ [n.name] := by
  generalize hrow : SourceKey.join j.row = key' at h
  cases h with
  | root => cases hrow
  | @join key' entity _ start n j' hkey hj' hn htarget hname =>
    -- The two entries have the same alias.
    have hentry : ((key, name), j) = ((key', n.name), j') :=
      List.inj_on_of_nodup_map hdistinct hj hj' (SourceKey.join.inj hrow)
    obtain ⟨⟨rfl, rfl⟩, rfl⟩ := Prod.mk.inj hentry |>.imp_left Prod.mk.inj
    exact ⟨entity, start, n, hkey, hn, htarget, hname, rfl, rfl⟩

/-- Joins with aliases of their own are reached along one path. -/
theorem path_unique (hdistinct : (s.joins.map fun e => e.2.row).Nodup)
    (h : Leads model root s key entity path) (h' : Leads model root s key entity' path') :
    entity = entity' ∧ path = path' := by
  -- Both ways end with the same join, and what is before it is the same by induction.
  induction h generalizing entity' path' with
  | root =>
    cases h'
    exact ⟨rfl, rfl⟩
  | @join key entity target path n j _ hj hn htarget _ ih =>
    obtain ⟨entity', path', n', hkey', hn', htarget', -, hname, rfl⟩ :=
      h'.exists_source hdistinct hj
    obtain ⟨rfl, rfl⟩ := ih hkey'
    rw [← hname, hn] at hn'
    cases hn'
    exact ⟨Option.some.inj (htarget.symm.trans htarget'), rfl⟩

/-- Along one path there is one join, if there is one for each source and navigation. -/
theorem key_unique (hkeys : (s.joins.map (·.1)).Nodup)
    (h : Leads model root s key entity path) (h' : Leads model root s key' entity' path) :
    key = key' := by
  induction h generalizing key' entity' with
  | root =>
    generalize hpath : ([] : List String) = path at h'
    cases h' with
    | root => rfl
    | join => simp at hpath
  | @join key entity target path n j hkey hj hn htarget _ ih =>
    generalize hpath : path ++ [n.name] = path'' at h'
    cases h' with
    | root => simp at hpath
    | @join key' entity' _ path' n' j' hkey' hj' hn' htarget' _ =>
      obtain ⟨rfl, hname⟩ := List.append_inj' hpath rfl
      -- The sources are the same by induction, so the joins are recorded under the same key.
      have hstart := ih hkey'
      have hentry : ((key, n.name), j) = ((key', n'.name), j') := by
        apply List.inj_on_of_nodup_map hkeys hj hj'
        rw [hstart, List.singleton_inj.mp hname]
      exact congrArg (fun e => SourceKey.join e.2.row) hentry

end Leads

section Keys

variable {row node outerKey : Expr} {columns : List (String × String)}

theorem clear_of_not_member (hjoin : node.joinAlias? = none)
    (hmember : ∀ row name type, node ≠ .member row name type) : Clear model node :=
  ⟨hjoin, fun row name type _ heq => absurd heq (hmember row name type)⟩

theorem clear_of_leaf (hjoin : node.joinAlias? = none) (hleaf : node.children = []) :
    Clear model node := by
  apply clear_of_not_member hjoin
  intro row name type heq
  rw [heq] at hleaf
  cases hleaf

theorem clear_lambda (params : List Param) (h : node.Everywhere (Clear model)) :
    (Expr.lambda params node).Everywhere (Clear model) :=
  everywhere_iff.mpr ⟨clear_of_not_member rfl nofun, List.forall_mem_singleton.mpr h⟩

theorem clear_quote (h : node.Everywhere (Clear model)) :
    (Expr.quote node).Everywhere (Clear model) :=
  everywhere_iff.mpr ⟨clear_of_not_member rfl nofun, List.forall_mem_singleton.mpr h⟩

/-- A model in which no entity has a property and a navigation of the same name. -/
def Unambiguous (model : Model) : Prop :=
  ∀ e ∈ model.entities, ∀ p ∈ e.properties, ∀ n ∈ e.navigations, p.name ≠ n.name

/-- A property of a row is no navigation. -/
theorem clear_property (hnames : Unambiguous model)
    (hentity : model.entity? entity.name = some entity)
    (hrow : row.type = .entity entity.name) {p : Property} (hp : p ∈ entity.properties)
    (type : DataType) : Clear model (.member row p.name type) := by
  refine ⟨rfl, ?_⟩
  rintro row' name type' entity' heq htype
  cases heq
  rw [hrow] at htype
  cases htype
  unfold Model.navigation?
  rw [hentity]
  refine List.find?_eq_none.mpr fun n hn => ?_
  rw [beq_iff_eq]
  exact (hnames entity (List.mem_of_find?_eq_some hentity) p hp n hn).symm

theorem exists_property (row node : Expr) {name : String}
    (h : (entity.property? name).isSome = true) : ∃ r, property row entity node name = .ok r := by
  obtain ⟨p, hp⟩ := Option.isSome_iff_exists.mp h
  unfold property
  rw [hp]
  exact ⟨_, rfl⟩

theorem exists_keyOf (row node : Expr)
    (hproperties : ∀ c ∈ columns, (entity.property? c.2).isSome = true) :
    ∃ key, keyOf row entity node columns = .ok key := by
  have hproperty : ∀ c ∈ columns, ∃ r, property row entity node c.2 = .ok r := fun c hc =>
    exists_property row node (hproperties c hc)
  unfold keyOf
  split
  · exact hproperty _ List.mem_cons_self
  · obtain ⟨members, hmembers⟩ := exists_mapM_eq_ok fun c hc => by
      obtain ⟨r, hr⟩ := hproperty c hc
      exact ⟨(c.1, r), bind_eq_ok.mpr ⟨r, hr, rfl⟩⟩
    exact ⟨.object members, bind_eq_ok.mpr ⟨members, hmembers, rfl⟩⟩

theorem clear_keyOf (hnames : Unambiguous model) (hentity : model.entity? entity.name = some entity)
    (hleaf : row.children = []) (hclear : Clear model row) (hrow : row.type = .entity entity.name)
    (h : keyOf row entity node columns = .ok outerKey) : outerKey.Everywhere (Clear model) := by
  obtain ⟨members, -, hmembers, hkey⟩ := keyOf_eq_ok h
  have hall : ∀ m ∈ members, m.2.Everywhere (Clear model) := by
    intro m hm
    obtain ⟨p, hp, heq⟩ := hmembers m hm
    rw [heq]
    refine everywhere_iff.mpr ⟨clear_property hnames hentity hrow hp _, ?_⟩
    exact List.forall_mem_singleton.mpr (everywhere_of_leaf hleaf hclear)
  rcases hkey with rfl | ⟨name, rfl⟩
  · exact everywhere_iff.mpr ⟨clear_of_not_member rfl nofun, List.forall_mem_map.mpr hall⟩
  · exact hall _ List.mem_cons_self

/-- A key starts from the row that it is read off. -/
theorem start?_keyOf (hleaf : row.children = []) (hcolumns : columns ≠ [])
    (h : keyOf row entity node columns = .ok outerKey) : outerKey.start? = row.sourceAlias? := by
  obtain ⟨members, hnonempty, hmembers, hkey⟩ := keyOf_eq_ok h
  have hall : ∀ m ∈ members, m.2.start? = row.sourceAlias? := by
    intro m hm
    obtain ⟨p, -, heq⟩ := hmembers m hm
    rw [heq, start?_eq]
    change ([row].findSome? start?) = _
    rw [List.findSome?_singleton, start?_of_leaf hleaf]
  rcases hkey with rfl | ⟨name, rfl⟩
  · rw [start?_eq]
    change (members.map (·.2)).findSome? start? = _
    rw [List.findSome?_map]
    cases hrow : row.sourceAlias? with
    | none =>
      rw [List.findSome?_eq_none_iff]
      exact fun m hm => (hall m hm).trans hrow
    | some a =>
      obtain ⟨m, ms, rfl⟩ := List.exists_cons_of_ne_nil (hnonempty hcolumns)
      rw [List.findSome?_cons, Function.comp_apply, hall m List.mem_cons_self, hrow]
  · exact hall _ List.mem_cons_self

end Keys

/-- The joins recorded so far lead along the paths `ps`, one after the other. The ones with the aliases
`attached` have been put around their source, and the others wait. -/
structure Charted (model : Model) (root : Entity) (attached : List Alias) (x : Expansion)
    (ps : List (List String)) : Prop where
  tidy : Tidy x
  rows : x.state.rootType? (.root 0) = some (.entity root.name)
  anchors : ∀ e ∈ x.state.joins, e.2.anchor = .root 0
  keys : (x.state.joins.map (·.1)).Nodup
  paths : List.Forall₂ (fun e q => ∃ entity, Leads model root x.state (.join e.2.row) entity q)
    x.state.joins ps
  labels : x.state.joins.map (fun e => e.2.row) = attached ++ x.pending.map fun p => p.label.row
  clear : ∀ p ∈ x.pending, p.inner.Everywhere (Clear model) ∧ p.outerKey.Everywhere (Clear model) ∧
    p.innerKey.Everywhere (Clear model)
  described : ∀ p ∈ x.pending, Describes x.state p.label p.outerKey

theorem Describes.mono {label : JoinLabel} {outerKey : Expr} (h : Describes s label outerKey)
    (hgrows : Grows s s') : Describes s' label outerKey := by
  obtain ⟨e, he, hentry⟩ := h
  exact ⟨e, hgrows.joins.subset he, hentry⟩

theorem Leads.entity? (h : Leads model root s key entity path)
    (hroot : model.entity? root.name = some root) : model.entity? entity.name = some entity := by
  cases h with
  | root => exact hroot
  | join _ _ _ htarget _ => exact Model.entity?_name htarget

/-- What the model has to be like: it is valid, its names are not ambiguous, and the root entity is
found under its name. -/
structure Sensible (model : Model) (root : Entity) : Prop where
  valid : ∀ e ∈ model.entities, model.ValidEntity e
  names : Unambiguous model
  root : model.entity? root.name = some root

namespace Charted

variable {attached : List Alias} {ps : List (List String)}

/-- Everything lies below the one root. -/
theorem anchor? (hx : Charted model root attached x ps)
    (h : Leads model root x.state key entity path) : x.state.anchor? key = some (.root 0) := by
  cases h with
  | root => rfl
  | @join key entity target path n j hkey hj hn htarget hname =>
    change (x.state.joinWithAlias? j.row).map Join.anchor = _
    rw [joinWithAlias?_of_mem hx.tidy.distinct hj, Option.map_some, hx.anchors _ hj]

/-- The row that a join starts from is a parameter or a reference to another joined row. -/
theorem startRow_of_leads (h : Leads model root s key entity path) :
    (startRow key ⟨"r", .entity root.name⟩ entity).children = [] ∧
      (startRow key ⟨"r", .entity root.name⟩ entity).joinAlias? = none ∧
      (startRow key ⟨"r", .entity root.name⟩ entity).type = .entity entity.name ∧
      (startRow key ⟨"r", .entity root.name⟩ entity).sourceAlias? = rowAlias? key := by
  cases h with
  | root => exact ⟨rfl, rfl, rfl, rfl⟩
  | join => exact ⟨rfl, rfl, rfl, rfl⟩

/-- A navigation from a row that has been reached has all that its join is made of. -/
theorem exists_joinParts (hmodel : Sensible model root) (hx : Charted model root attached x ps)
    (h : Leads model root x.state key entity path) (hn : entity.navigation? n.name = some n)
    (htarget : model.entity? n.target = some target) (node : Expr) :
    ∃ parts, joinParts model x.state key entity n node = .ok parts ∧ parts.target = target ∧
      parts.anchor = .root 0 ∧ parts.outerKey.Everywhere (Clear model) ∧
      parts.innerKey.Everywhere (Clear model) ∧ parts.outerKey.start? = rowAlias? key := by
  have hentity := h.entity? hmodel.root
  obtain ⟨target', htarget', hnonempty, hsource, htargets⟩ := Model.columns_of_valid hmodel.valid
    (List.mem_of_find?_eq_some hentity) (List.mem_of_find?_eq_some hn)
  cases htarget.symm.trans htarget'
  obtain ⟨hleaf, hjoin, htype, hstart⟩ := startRow_of_leads h
  -- The columns exist on both sides, so there is a key for each.
  have hsourceColumns : sourceColumns n ≠ [] := fun hnil =>
    hnonempty (List.map_eq_nil_iff.mp hnil)
  obtain ⟨outerKey, houter⟩ := exists_keyOf
    (startRow key ⟨"r", .entity root.name⟩ entity) node hsource
  obtain ⟨innerKey, hinner⟩ := exists_keyOf
    (.param ⟨"i", .entity target.name⟩) node htargets
  have houterClear := clear_keyOf hmodel.names hentity hleaf (clear_of_leaf hjoin hleaf) htype
    houter
  have hinnerClear := clear_keyOf hmodel.names (Model.entity?_name htarget) rfl
    (clear_of_leaf rfl rfl) rfl hinner
  refine ⟨⟨target, .root 0, .lambda [⟨"r", .entity root.name⟩] outerKey,
    .lambda [⟨"i", .entity target.name⟩] innerKey⟩, ?_, rfl, rfl, clear_lambda _ houterClear,
    clear_lambda _ hinnerClear, ?_⟩
  · exact joinParts_eq_ok_iff.mpr ⟨.entity root.name, outerKey, innerKey, htarget, hx.anchor? h,
      hx.rows, houter, hinner, rfl, rfl⟩
  · rw [start?_eq]
    change [outerKey].findSome? start? = _
    rw [List.findSome?_singleton, start?_keyOf hleaf hsourceColumns houter, hstart]

/-- A new join leads one step further than what it starts from. -/
theorem addJoin (hx : Charted model root attached x ps)
    (h : Leads model root x.state key entity path) (hn : entity.navigation? n.name = some n)
    (htarget : model.entity? n.target = some target)
    (hnone : x.state.findJoin? key n.name = none) {parts : JoinParts} {node : Expr}
    (hparts : joinParts model x.state key entity n node = .ok parts) (hto : parts.target = target)
    (hanchor : parts.anchor = .root 0) (houter : parts.outerKey.Everywhere (Clear model))
    (hinner : parts.innerKey.Everywhere (Clear model))
    (hstart : parts.outerKey.start? = rowAlias? key) :
    Charted model root attached (Navigation.addJoin key n parts x).2 (ps ++ [path ++ [n.name]]) ∧
      Leads model root (Navigation.addJoin key n parts x).2.state (.join ⟨x.state.nextAlias⟩) target
        (path ++ [n.name]) := by
  have hgrows := grows_addJoin parts hnone
  have hjoins := joins_addJoin parts hnone
  have hleads : Leads model root (Navigation.addJoin key n parts x).2.state
      (.join ⟨x.state.nextAlias⟩) target (path ++ [n.name]) := by
    refine .join (h.mono hgrows) (j := ⟨⟨x.state.nextAlias⟩, parts.target.name, parts.anchor,
      joinKind x.state key n⟩) ?_ hn htarget (congrArg Entity.name hto)
    rw [hjoins]
    exact List.mem_append_right _ List.mem_cons_self
  refine ⟨⟨hx.tidy.addJoin hnone (fits_of_joinParts hparts), ?_, ?_, ?_, ?_, ?_, ?_, ?_⟩, hleads⟩
  · rw [state_addJoin parts hnone]
    exact hx.rows
  · rw [hjoins]
    exact List.forall_mem_append.mpr ⟨hx.anchors, List.forall_mem_singleton.mpr hanchor⟩
  · rw [hjoins, List.map_append]
    refine hx.keys.append (List.nodup_singleton _) fun k hk hk' => ?_
    obtain ⟨e, he, rfl⟩ := List.mem_map.mp hk
    -- A second join for the same source and navigation would have been found.
    have hne := List.lookup_eq_none_iff.mp hnone e he
    rw [List.mem_singleton.mp hk'] at hne
    simp at hne
  · rw [hjoins]
    refine List.rel_append (hx.paths.imp fun e q ⟨entity, he⟩ => ⟨entity, he.mono hgrows⟩) ?_
    exact .cons ⟨target, hleads⟩ .nil
  · rw [hjoins, List.map_append, hx.labels]
    simp [Navigation.addJoin, State.takeAlias]
  · intro p hp
    rcases pending_addJoin hp with hp | rfl
    · exact hx.clear p hp
    · exact ⟨everywhere_of_leaf rfl (clear_of_leaf rfl rfl), houter, hinner⟩
  · intro p hp
    rcases pending_addJoin hp with hp | rfl
    · exact (hx.described p hp).mono hgrows
    · refine ⟨((key, n.name), ⟨⟨x.state.nextAlias⟩, parts.target.name, parts.anchor,
        joinKind x.state key n⟩), ?_, rfl, rfl, hstart⟩
      rw [hjoins]
      exact List.mem_append_right _ List.mem_cons_self

/-- A recorded join for a navigation from a row that has been reached leads one step further. -/
theorem leads_of_mem (hx : Charted model root attached x ps)
    (h : Leads model root x.state key entity path) (hn : entity.navigation? n.name = some n)
    (htarget : model.entity? n.target = some target) (hj : ((key, n.name), j) ∈ x.state.joins) :
    j.target = target.name ∧ Leads model root x.state (.join j.row) target (path ++ [n.name]) ∧
      path ++ [n.name] ∈ ps := by
  obtain ⟨q, hq, entity', hleads⟩ := exists_mem_of_forall₂ hx.paths hj
  -- The join was recorded for a row along the same path, which is one of the same entity.
  have hname : j.target = target.name := by
    obtain ⟨entity', path', n', hkey', hn', htarget', hname, hsame, -⟩ :=
      hleads.exists_source hx.tidy.distinct hj
    obtain ⟨rfl, rfl⟩ := h.path_unique hx.tidy.distinct hkey'
    rw [← hsame, hn] at hn'
    cases hn'
    cases htarget.symm.trans htarget'
    exact hname
  have hstep : Leads model root x.state (.join j.row) target (path ++ [n.name]) :=
    .join h hj hn htarget hname
  obtain ⟨-, rfl⟩ := hleads.path_unique hx.tidy.distinct hstep
  exact ⟨hname, hstep, hq⟩

end Charted

/-- What an expansion does to the chart if it reads members of rows that are reached along some
paths. -/
structure Visits (model : Model) (root : Entity) (attached : List Alias) (x x' : Expansion)
    (ps ps' paths : List (List String)) : Prop where
  charted : Charted model root attached x' ps'
  grows : Grows x.state x'.state
  mem : ∀ q, q ∈ ps' ↔ q ∈ ps ∨ q ≠ [] ∧ ∃ path ∈ paths, q <+: path

namespace Visits

variable {attached : List Alias} {ps ps' ps'' paths paths' : List (List String)} {t : Expansion}

theorem refl (hx : Charted model root attached x ps) (hpaths : ∀ path ∈ paths, path = []) :
    Visits model root attached x x ps ps paths := by
  refine ⟨hx, .refl _, fun q => ⟨.inl, ?_⟩⟩
  rintro (hq | ⟨hne, path, hpath, hq⟩)
  · exact hq
  · rw [hpaths path hpath, List.prefix_nil] at hq
    exact absurd hq hne

theorem trans (h : Visits model root attached x t ps ps' paths)
    (h' : Visits model root attached t x' ps' ps'' paths') :
    Visits model root attached x x' ps ps'' (paths ++ paths') := by
  refine ⟨h'.charted, h.grows.trans h'.grows, fun q => ?_⟩
  -- A path of either part is a path of both.
  rw [h'.mem, h.mem]
  simp only [List.mem_append, or_and_right, exists_or, and_or_left, or_assoc]

end Visits

section Bodies

variable {attached : List Alias} {ps : List (List String)} {Γ : Scope} {p : Param} {row : Expr}

/-- A node that the expansion has no rule for is rebuilt from its children. -/
theorem gives_expand_children {e : Expr} {bound : Nat → Option SourceKey} {cs : List Expr}
    (hkind : e.kindName ∉ ["MethodCall", "Quote", "Lambda", "Member"])
    (hcs : (e.children.mapM fun c => Prod.fst <$> expand model Γ (fun _ => none) c).Gives x cs x') :
    (expand model Γ bound e).Gives x (e.setChildren cs, none) x' := by
  have hne : ∀ kind ∈ ["MethodCall", "Quote", "Lambda", "Member"], e.kindName ≠ kind := by
    intro kind hmem heq
    rw [heq] at hkind
    exact hkind hmem
  rw [expand_eq_traverse (hne _ (by simp)) (hne _ (by simp)) (hne _ (by simp)) (hne _ (by simp)),
    traverse_eq]
  exact gives_bind.mpr ⟨_, x', gives_map.mpr ⟨cs, hcs, rfl⟩, gives_pure.mpr ⟨rfl, rfl⟩⟩

theorem gives_expand_leaf {e : Expr} {bound : Nat → Option SourceKey}
    (hkind : e.kindName ∉ ["MethodCall", "Quote", "Lambda", "Member"]) (hleaf : e.children = [])
    (x : Expansion) : (expand model Γ bound e).Gives x (e, none) x := by
  have hcs : (e.children.mapM fun c => Prod.fst <$> expand model Γ (fun _ => none) c).Gives x
      e.children x := by
    rw [hleaf]
    exact gives_pure.mpr ⟨rfl, rfl⟩
  have h : (expand model Γ bound e).Gives x (e.setChildren e.children, none) x :=
    gives_expand_children hkind hcs
  rw [setChildren_children] at h
  exact h

/-- A navigation from a row becomes a reference to the row that is joined along its path. -/
theorem exists_gives_expandReference (hmodel : Sensible model root)
    (hx : Charted model root attached x ps) (h : Leads model root x.state key entity path)
    (hn : entity.navigation? n.name = some n) (htarget : model.entity? n.target = some target)
    (node : Expr) :
    ∃ a x' ps', (expandReference model key entity n node).Gives x (.sourceRef a target.name) x' ∧
      Charted model root attached x' ps' ∧ Grows x.state x'.state ∧
      Leads model root x'.state (.join a) target (path ++ [n.name]) ∧
      ∀ q, q ∈ ps' ↔ q ∈ ps ∨ q = path ++ [n.name] := by
  unfold expandReference
  cases hfind : x.state.findJoin? key n.name with
  | some j =>
    -- The path was met before, and the join that is found is the one along it.
    obtain ⟨hname, hleads, hvisited⟩ :=
      hx.leads_of_mem h hn htarget (mem_of_findJoin? hfind)
    refine ⟨j.row, x, ps, ?_, hx, .refl _, hleads, fun q => ⟨.inl, ?_⟩⟩
    · refine gives_bind.mpr ⟨x, x, gives_get.mpr ⟨rfl, rfl⟩, ?_⟩
      rw [hfind]
      exact gives_pure.mpr ⟨congrArg _ hname.symm, rfl⟩
    · rintro (hq | rfl)
      · exact hq
      · exact hvisited
  | none =>
    -- The path is new, and so is its join.
    obtain ⟨parts, hparts, hto, hanchor, houter, hinner, hstart⟩ :=
      hx.exists_joinParts hmodel h hn htarget node
    obtain ⟨hx', hleads⟩ :=
      hx.addJoin h hn htarget hfind hparts hto hanchor houter hinner hstart
    refine ⟨⟨x.state.nextAlias⟩, (addJoin key n parts x).2, ps ++ [path ++ [n.name]], ?_, hx',
      grows_addJoin parts hfind, hleads, fun q => ?_⟩
    · refine gives_bind.mpr ⟨x, x, gives_get.mpr ⟨rfl, rfl⟩, ?_⟩
      rw [hfind]
      refine gives_bind.mpr ⟨parts, x, gives_ofExcept.mpr ⟨hparts, rfl⟩, ?_⟩
      refine gives_bind.mpr ⟨⟨x.state.nextAlias⟩, _, gives_modifyGet.mpr rfl, ?_⟩
      exact gives_pure.mpr ⟨by rw [hto], rfl⟩
    · rw [List.mem_append, List.mem_singleton]

/-- What becomes of a row: a leaf that is a row of a source, which the joins lead to. -/
structure RowOf (model : Model) (root : Entity) (Γ : Scope) (s : State) (row : Expr)
    (key : SourceKey) (entity : Entity) (path : List String) : Prop where
  found : rowKey? Γ row = some key
  leads : Leads model root s key entity path
  type : row.type = .entity entity.name
  leaf : row.children = []
  clear : Clear model row

/-- A row is expanded by its path, and the joins on the way are visited. -/
theorem exists_gives_expand_row (hmodel : Sensible model root)
    (hΓ : Γ.source? p = some (.root 0)) (hp : p.type = .entity root.name)
    (hrow : IsRow model root p row entity path) (hx : Charted model root attached x ps) :
    ∃ row' key x' ps', (expand model Γ (fun _ => none) row).Gives x (row', none) x' ∧
      RowOf model root Γ x'.state row' key entity path ∧
      Visits model root attached x x' ps ps' [path] := by
  induction hrow with
  | param =>
    refine ⟨.param p, .root 0, x, ps, ?_, ⟨hΓ, .root, hp, rfl, clear_of_leaf rfl rfl⟩,
      .refl hx (List.forall_mem_singleton.mpr rfl)⟩
    exact gives_expand_leaf (by simp [kindName]) rfl x
  | @navigate row entity target path n type _ hn hone htarget ih =>
    -- The row before the last step is a leaf of the chart, and one more join starts from it.
    obtain ⟨row', key, t, ps', hgives, hrow', hvisits⟩ := ih
    obtain ⟨a, x', ps'', hreference, hx', hgrows, hleads, hmem⟩ :=
      exists_gives_expandReference hmodel hvisits.charted hrow'.leads hn htarget
        (.member row' n.name type)
    refine ⟨.sourceRef a target.name, .join a, x', ps'', ?_,
      ⟨rfl, hleads, rfl, rfl, clear_of_leaf rfl rfl⟩, hx', hvisits.grows.trans hgrows, fun q => ?_⟩
    · rw [expand]
      refine gives_bind.mpr ⟨(row', none), t, hgives, gives_bind.mpr ⟨_, x', ?_,
        gives_pure.mpr ⟨rfl, rfl⟩⟩⟩
      unfold expandMember
      simp only [hrow'.type, DataType.entityName?, Option.bind_some,
        hrow'.leads.entity? hmodel.root, hn, hone, hrow'.found]
      exact hreference
    · rw [hmem, hvisits.mem]
      simp only [List.mem_singleton, exists_eq_left, List.prefix_concat_iff]
      constructor
      · rintro ((hq | ⟨hne, hq⟩) | rfl)
        · exact .inl hq
        · exact .inr ⟨hne, .inr hq⟩
        · exact .inr ⟨by simp, .inl rfl⟩
      · rintro (hq | ⟨hne, rfl | hq⟩)
        · exact .inl (.inl hq)
        · exact .inr rfl
        · exact .inl (.inr ⟨hne, hq⟩)

/-- An expression is expanded by reading members of the rows along its paths, and it is left with no
navigation. -/
def Reads (model : Model) (root : Entity) (Γ : Scope) (e : Expr) : Prop :=
  ∀ attached x ps, Charted model root attached x ps →
    ∃ e' x' ps', (expand model Γ (fun _ => none) e).Gives x (e', none) x' ∧
      e'.Everywhere (Clear model) ∧ Visits model root attached x x' ps ps' e.navigationPaths

theorem reads_property (hmodel : Sensible model root) (hΓ : Γ.source? p = some (.root 0))
    (hp : p.type = .entity root.name) (hrow : IsRow model root p row entity path) {q : Property}
    (hq : q ∈ entity.properties) (type : DataType) :
    Reads model root Γ (.member row q.name type) := by
  intro attached x ps hx
  obtain ⟨row', key, x', ps', hgives, hrow', hvisits⟩ :=
    exists_gives_expand_row hmodel hΓ hp hrow hx
  have hentity := hrow'.leads.entity? hmodel.root
  have hclear := clear_property hmodel.names hentity hrow'.type hq type
  refine ⟨.member row' q.name type, x', ps', ?_, ?_, hvisits.charted, hvisits.grows, fun q' => ?_⟩
  · rw [expand]
    refine gives_bind.mpr ⟨(row', none), x', hgives, gives_bind.mpr ⟨_, x', ?_,
      gives_pure.mpr ⟨rfl, rfl⟩⟩⟩
    -- The name is one of a property, so no navigation is followed.
    have hnone : entity.navigation? q.name = none := by
      have hnone := hclear.2 _ _ _ _ rfl hrow'.type
      unfold Model.navigation? at hnone
      rw [hentity] at hnone
      exact hnone
    unfold expandMember
    simp only [hrow'.type, DataType.entityName?, Option.bind_some, hentity, hnone]
    exact gives_pure.mpr ⟨rfl, rfl⟩
  · refine everywhere_iff.mpr ⟨hclear, ?_⟩
    exact List.forall_mem_singleton.mpr (everywhere_of_leaf hrow'.leaf hrow'.clear)
  · rw [hvisits.mem, exists_navigationPaths_member_iff hrow]
    simp only [List.mem_singleton, exists_eq_left]

theorem reads_list {cs : List Expr} (hcs : ∀ c ∈ cs, Reads model root Γ c)
    (hx : Charted model root attached x ps) :
    ∃ cs' x' ps', (cs.mapM fun c => Prod.fst <$> expand model Γ (fun _ => none) c).Gives x cs' x' ∧
      cs'.length = cs.length ∧ (∀ c ∈ cs', c.Everywhere (Clear model)) ∧
      Visits model root attached x x' ps ps' (cs.flatMap navigationPaths) := by
  induction cs generalizing x ps with
  | nil =>
    exact ⟨[], x, ps, gives_mapM_nil.mpr ⟨rfl, rfl⟩, rfl, List.forall_mem_nil _,
      .refl hx (List.forall_mem_nil _)⟩
  | cons c cs ih =>
    obtain ⟨c', t, ps', hc', hclear, hvisits⟩ := hcs c List.mem_cons_self attached x ps hx
    obtain ⟨cs', x', ps'', hcs', hlength, hclears, hvisits'⟩ :=
      ih (fun d hd => hcs d (List.mem_cons_of_mem _ hd)) hvisits.charted
    refine ⟨c' :: cs', x', ps'', ?_, congrArg Nat.succ hlength,
      List.forall_mem_cons.mpr ⟨hclear, hclears⟩, ?_⟩
    · exact gives_mapM_cons.mpr ⟨c', t, cs', gives_map.mpr ⟨_, hc', rfl⟩, hcs', rfl⟩
    · rw [List.flatMap_cons]
      exact hvisits.trans hvisits'

theorem isCompound_setChildren (e : Expr) (cs : List Expr) :
    (e.setChildren cs).isCompound = e.isCompound := by
  unfold setChildren
  split <;> rfl

/-- A compound expression is none of the nodes that the expansion treats in a way of their own. -/
theorem kindName_of_isCompound {e : Expr} (he : e.isCompound = true) :
    e.kindName ∉ ["MethodCall", "Quote", "Lambda", "Member"] := by
  cases e with
  | unary | binary | cond | object => simp [kindName]
  | _ => cases he

theorem clear_of_isCompound {e : Expr} (he : e.isCompound = true) : Clear model e := by
  cases e with
  | unary | binary | cond | object => exact clear_of_not_member rfl nofun
  | _ => cases he

theorem navigationPaths_of_isCompound {e : Expr} (he : e.isCompound = true) :
    e.navigationPaths = e.children.flatMap navigationPaths := by
  rw [navigationPaths_eq]
  cases e with
  | unary | binary | cond | object => rfl
  | _ => cases he

/-- A body is expanded by reading members of the rows along its paths. -/
theorem reads_body (hmodel : Sensible model root) (hΓ : Γ.source? p = some (.root 0))
    (hp : p.type = .entity root.name) {body : Expr} (hbody : IsBody model root p body) :
    Reads model root Γ body := by
  induction hbody with
  | const value type =>
    intro attached x ps hx
    refine ⟨.const value type, x, ps, ?_, everywhere_of_leaf rfl (clear_of_leaf rfl rfl), .refl hx ?_⟩
    · exact gives_expand_leaf (by simp [kindName]) rfl x
    · rw [navigationPaths_eq]
      exact List.forall_mem_nil _
  | property type hrow hq => exact reads_property hmodel hΓ hp hrow hq type
  | @compound e he _ ih =>
    intro attached x ps hx
    obtain ⟨cs, x', ps', hcs, hlength, hclear, hvisits⟩ := reads_list ih hx
    rw [navigationPaths_of_isCompound he]
    refine ⟨e.setChildren cs, x', ps', gives_expand_children (kindName_of_isCompound he) hcs, ?_,
      hvisits⟩
    refine everywhere_iff.mpr ⟨clear_of_isCompound ?_, ?_⟩
    · rw [isCompound_setChildren]
      exact he
    · rw [children_setChildren hlength]
      exact hclear

end Bodies

end QueryLowering.Pass.Navigation
