import QueryLowering.Proofs.JoinFrames

/-!
Queries that filter, order and project the rows of one entity, by lambdas that read properties of
their row and of rows that navigations lead to from there. Each of these rows is reached along a path
of navigations, and so is each joined row of a query that has been expanded.
-/

namespace QueryLowering.Expr

section Queries

variable (model : Model) (root : Entity)

/-- A row of an entity that is reached from a parameter along a path of navigations to one row. -/
inductive IsRow (p : Param) : Expr → Entity → List String → Prop
  | param : IsRow p (.param p) root []
  | navigate {row : Expr} {entity target : Entity} {path : List String} {n : Navigation}
      (type : DataType) :
      IsRow p row entity path → entity.navigation? n.name = some n → n.cardinality = .one →
        model.entity? n.target = some target →
          IsRow p (.member row n.name type) target (path ++ [n.name])

/-- Is this a unary or binary operation, a conditional or the construction of an object? -/
def isCompound : Expr → Bool
  | unary .. | binary .. | cond .. | object .. => true
  | _ => false

/-- An expression that is made of constants and of properties of rows. -/
inductive IsBody (p : Param) : Expr → Prop
  | const (value : Constant Expr) (type : DataType) : IsBody p (.const value type)
  | property {row : Expr} {entity : Entity} {path : List String} {q : Property}
      (type : DataType) :
      IsRow model root p row entity path → q ∈ entity.properties → IsBody p (.member row q.name type)
  | compound {e : Expr} : e.isCompound = true → (∀ c ∈ e.children, IsBody p c) → IsBody p e

/-- Operators that filter or order by one lambda. -/
def chainable : List String :=
  ["Where", "OrderBy", "OrderByDescending", "ThenBy", "ThenByDescending"]

/-- Filters and orders on all rows of the root entity, with the bodies of their lambdas. -/
inductive IsChain : Expr → List Expr → Prop
  | rows : IsChain (.entitySet root.name) []
  | apply {source body : Expr} {bodies : List Expr} {p : Param} {name : String}
      (typeArgs : List DataType) :
      IsChain source bodies → name ∈ chainable → p.type = .entity root.name →
        IsBody model root p body →
          IsChain (.call ⟨"Queryable", name, typeArgs⟩ none [source, .quote (.lambda [p] body)]
            (.queryable (.entity root.name))) (bodies ++ [body])

/-- A chain of filters and orders, perhaps with a projection at its end. -/
inductive IsQuery : Expr → List Expr → Prop
  | chain {e : Expr} {bodies : List Expr} : IsChain model root e bodies → IsQuery e bodies
  | select {source body : Expr} {bodies : List Expr} {p : Param} (typeArgs : List DataType)
      (type : DataType) :
      IsChain model root source bodies → p.type = .entity root.name → IsBody model root p body →
        IsQuery (.call ⟨"Queryable", "Select", typeArgs⟩ none [source, .quote (.lambda [p] body)] type)
          (bodies ++ [body])

end Queries

/-- The names of the members that lead from a parameter to an expression. -/
def rowPath? : Expr → Option (List String)
  | .param _ => some []
  | .member row name _ => (rowPath? row).map (· ++ [name])
  | _ => none

/-- If this is a member of a row, the path to that row. -/
def ownerPath? : Expr → Option (List String)
  | .member row _ _ => rowPath? row
  | _ => none

/-- The paths to all rows that an expression reads a member of. -/
def navigationPaths (e : Expr) : List (List String) := e.nodes.filterMap ownerPath?

/-- The distinct prefixes of the paths in some expressions, without the empty one. -/
def pathPrefixes (bodies : List Expr) : List (List String) :=
  (((bodies.flatMap navigationPaths).flatMap List.inits).filter (· ≠ [])).dedup

variable {model : Model} {root : Entity} {p : Param} {e row : Expr} {entity : Entity}
  {path q : List String}

theorem mem_pathPrefixes {bodies : List Expr} :
    q ∈ pathPrefixes bodies ↔ q ≠ [] ∧ ∃ path ∈ bodies.flatMap navigationPaths, q <+: path := by
  unfold pathPrefixes
  rw [List.mem_dedup, List.mem_filter, List.mem_flatMap, decide_eq_true_iff, and_comm]
  simp only [List.mem_inits]

/-- One more lambda adds the prefixes of its own paths. -/
theorem mem_pathPrefixes_append {bodies : List Expr} {body : Expr} :
    q ∈ pathPrefixes (bodies ++ [body]) ↔
      q ∈ pathPrefixes bodies ∨ q ≠ [] ∧ ∃ path ∈ body.navigationPaths, q <+: path := by
  simp only [mem_pathPrefixes, List.flatMap_append, List.flatMap_singleton, List.mem_append,
    or_and_right, exists_or, and_or_left]

theorem navigationPaths_eq (e : Expr) :
    e.navigationPaths = e.ownerPath?.toList ++ e.children.flatMap navigationPaths := by
  unfold navigationPaths
  rw [nodes_eq, List.filterMap_cons, List.filterMap_flatMap]
  cases e.ownerPath? with
  | none => rfl
  | some path => rfl

theorem IsRow.rowPath? (h : IsRow model root p row entity path) : row.rowPath? = some path := by
  induction h with
  | param => rfl
  | navigate type _ _ _ _ ih => rw [Expr.rowPath?, ih, Option.map_some]

/-- All rows on the way to a row are reached along prefixes of its path. -/
theorem IsRow.isPrefix_of_mem (h : IsRow model root p row entity path)
    (hq : q ∈ row.navigationPaths) : q <+: path := by
  induction h with
  | param =>
    rw [navigationPaths_eq] at hq
    cases hq
  | @navigate row _ _ path n type hrow _ _ _ ih =>
    rw [navigationPaths_eq] at hq
    have hq : q ∈ (Expr.rowPath? row).toList ++ [row].flatMap navigationPaths := hq
    rw [hrow.rowPath?, List.flatMap_singleton, List.mem_append] at hq
    rcases hq with hq | hq
    · rw [List.mem_singleton.mp hq]
      exact List.prefix_append _ _
    · exact (ih hq).trans (List.prefix_append _ _)

/-- The rows that a property of a row is read through are those on the way to the row. -/
theorem exists_navigationPaths_member_iff (h : IsRow model root p row entity path) (name : String)
    (type : DataType) :
    (∃ path' ∈ (Expr.member row name type).navigationPaths, q <+: path') ↔ q <+: path := by
  have hpaths : (Expr.member row name type).navigationPaths = path :: row.navigationPaths := by
    rw [navigationPaths_eq]
    change (Expr.rowPath? row).toList ++ [row].flatMap navigationPaths = _
    rw [h.rowPath?, List.flatMap_singleton]
    rfl
  rw [hpaths]
  constructor
  · rintro ⟨path', hpath', hq⟩
    rcases List.mem_cons.mp hpath' with rfl | hpath'
    · exact hq
    · exact hq.trans (h.isPrefix_of_mem hpath')
  · exact fun hq => ⟨path, List.mem_cons_self, hq⟩

/-- The alias that a node refers to. -/
def sourceAlias? : Expr → Option Alias
  | .sourceRef a _ => some a
  | _ => none

/-- The join that another join starts from, by its outer key. One that starts from the rows of a root
refers to no joined row. -/
def start? (outerKey : Expr) : Option Alias := (outerKey.nodes.filterMap sourceAlias?).head?

theorem start?_eq (e : Expr) : e.start? = e.sourceAlias?.or (e.children.findSome? start?) := by
  unfold start?
  rw [nodes_eq, List.filterMap_cons, List.filterMap_flatMap]
  cases e.sourceAlias? with
  | none => exact List.head?_flatMap
  | some a => rfl

/-- A leaf starts from what it refers to. -/
theorem start?_of_leaf (hleaf : e.children = []) : e.start? = e.sourceAlias? := by
  rw [start?_eq, hleaf, List.findSome?_nil, Option.or_none]

/-- The aliases of the joins in a tree, one for each of them. -/
def joinRows (e : Expr) : List Alias := e.nodes.filterMap joinAlias?

theorem joinRows_eq (e : Expr) :
    e.joinRows = e.joinAlias?.toList ++ e.children.flatMap joinRows := by
  unfold joinRows
  rw [nodes_eq, List.filterMap_cons, List.filterMap_flatMap]
  cases e.joinAlias? with
  | none => rfl
  | some a => rfl

theorem mem_joinRows {a : Alias} : a ∈ e.joinRows ↔ e.HasJoin a := List.mem_filterMap

/-- The joins of a tree lead from the rows of a root to the rows with the alias along a path. -/
inductive Follows (r : Expr) : Alias → List String → Prop
  | first {label : JoinLabel} {outer inner outerKey innerKey : Expr} :
      .navigationJoin label outer inner outerKey innerKey ∈ r.nodes → outerKey.start? = none →
        Follows r label.row [label.navigation]
  | next {label : JoinLabel} {outer inner outerKey innerKey : Expr} {a : Alias}
      {path : List String} :
      .navigationJoin label outer inner outerKey innerKey ∈ r.nodes → outerKey.start? = some a →
        Follows r a path → Follows r label.row (path ++ [label.navigation])

end QueryLowering.Expr
