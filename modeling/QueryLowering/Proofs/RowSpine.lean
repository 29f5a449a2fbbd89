import QueryLowering.Proofs.Aliases
import QueryLowering.Proofs.Verification

/-!
Where a joined row can be seen. A join stands around a source, so its rows are those of the source
and of all that keeps the rows of the source: these make up the row spine. A joined row can be seen
from the lambdas of an operator with the join on the spine of a source, and from the outer key of a
later join on the same spine.
-/

namespace QueryLowering

theorem ArgShape.isSource_of_accepts {want arg : ArgShape} (h : want.accepts arg = true) :
    want.isSource = arg.isSource := by
  simp only [accepts, Bool.or_eq_true, Bool.and_eq_true, beq_iff_eq] at h
  rcases h with rfl | ⟨rfl, rfl⟩
  · rfl
  · rfl

namespace Operator

/-- There is an operator of this owner and name, and it has as many parameters as there are
arguments. Whether the arguments fit does not matter. -/
structure IsCalled (op : Operator) (m : Method) (args : List Expr) : Prop where
  mem : op ∈ all
  named : op.named m.owner m.name = true
  arity : op.params.length = args.length

theorem IsCalled.name_eq {op : Operator} {m : Method} {args : List Expr} (h : op.IsCalled m args) :
    op.name = m.name := by
  have hnamed := h.named
  simp only [Operator.named, Bool.and_eq_true, beq_iff_eq] at hnamed
  exact hnamed.2

theorem acceptsShapes_iff {wants shapes : List ArgShape} :
    acceptsShapes wants shapes = true ↔
      List.Forall₂ (fun want shape => want.accepts shape = true) wants shapes := by
  induction wants generalizing shapes with
  | nil =>
    cases shapes with
    | nil => simp [acceptsShapes]
    | cons shape shapes => simp [acceptsShapes]
  | cons want wants ih =>
    cases shapes with
    | nil => simp [acceptsShapes]
    | cons shape shapes => simp [acceptsShapes, ih]

/-- The overload for some arguments takes sources where these are sources. -/
theorem isCalled_of_findFor? {op : Operator} {m : Method} {args : List Expr}
    (h : findFor? m args = some op) :
    op.IsCalled m args ∧
      List.Forall₂ (fun want a => want.isSource = (ArgShape.of a).isSource) op.params args := by
  unfold findFor? find? at h
  have hfits := List.find?_some h
  rw [Bool.and_eq_true, acceptsShapes_iff, List.forall₂_map_right_iff] at hfits
  obtain ⟨hnamed, haccepts⟩ := hfits
  refine ⟨⟨List.mem_of_find?_eq_some h, hnamed, haccepts.length_eq⟩, ?_⟩
  exact haccepts.imp fun _ _ => ArgShape.isSource_of_accepts

/-- Every operator has a source as its first parameter. -/
theorem exists_source_param {op : Operator} (h : op ∈ all) :
    ∃ want wants, op.params = want :: wants ∧ want.isSource = true := by
  have hall : ∀ op ∈ all, (op.params.head?.any ArgShape.isSource) = true := by decide
  have hop := hall op h
  cases hparams : op.params with
  | nil =>
    rw [hparams] at hop
    cases hop
  | cons want wants =>
    rw [hparams] at hop
    exact ⟨want, wants, rfl, hop⟩

/-- A conversion to a deferred query has no other argument than what it converts. -/
theorem length_params_of_asQueryable {op : Operator} (h : op ∈ all)
    (hname : op.name = "AsQueryable") :
    op.params.length = 1 := by
  have hall : ∀ op ∈ all, op.name = "AsQueryable" → op.params.length = 1 := by decide
  exact hall op h hname

end Operator

namespace Expr

/-- The row spine of an expression: the expression itself, what a join on the spine is put around,
and the first argument of an operator on the spine that keeps rows as they are. -/
inductive OnSpine (n : Expr) : Expr → Prop
  | self : OnSpine n n
  | outer {label : JoinLabel} {outer inner outerKey innerKey : Expr} :
      OnSpine n outer → OnSpine n (.navigationJoin label outer inner outerKey innerKey)
  | source {op : Operator} {m : Method} {receiver : Option Expr} {source : Expr} {rest : List Expr}
      {type : DataType} :
      op.IsCalled m (source :: rest) → m.name ∈ Operator.rowPreserving → OnSpine n source →
        OnSpine n (.call m receiver (source :: rest) type)

/-- The join with the alias is on the row spine. -/
def Carries (e : Expr) (a : Alias) : Prop := ∃ n, OnSpine n e ∧ n.joinAlias? = some a

/-- The join with the alias is somewhere in the tree. -/
def HasJoin (e : Expr) (a : Alias) : Prop := ∃ n ∈ e.nodes, n.joinAlias? = some a

theorem HasJoin.of_child {e c : Expr} {a : Alias} (h : c.HasJoin a) (hc : c ∈ e.children) :
    e.HasJoin a := by
  obtain ⟨n, hn, ha⟩ := h
  exact ⟨n, mem_nodes_of_mem_children hc hn, ha⟩

/-- A leaf that is no join has none in it. -/
theorem not_hasJoin_of_leaf {e : Expr} {a : Alias} (hleaf : e.children = [])
    (he : e.joinAlias? = none) : ¬ e.HasJoin a := by
  rintro ⟨n, hn, ha⟩
  rw [nodes_eq, hleaf, List.flatMap_nil, List.mem_singleton] at hn
  rw [hn, he] at ha
  cases ha

theorem Carries.hasJoin {e : Expr} {a : Alias} (h : e.Carries a) : e.HasJoin a := by
  obtain ⟨n, hspine, ha⟩ := h
  refine ⟨n, ?_, ha⟩
  induction hspine with
  | self => exact self_mem_nodes _
  | outer _ ih => exact mem_nodes_of_mem_children (by simp [children]) ih
  | source _ _ _ ih => exact mem_nodes_of_mem_children (by simp [children]) ih

theorem Carries.outer {label : JoinLabel} {outer inner outerKey innerKey : Expr} {a : Alias}
    (h : outer.Carries a) : (navigationJoin label outer inner outerKey innerKey).Carries a := by
  obtain ⟨n, hspine, ha⟩ := h
  exact ⟨n, .outer hspine, ha⟩

theorem carries_label (label : JoinLabel) (outer inner outerKey innerKey : Expr) :
    (navigationJoin label outer inner outerKey innerKey).Carries label.row := ⟨_, .self, rfl⟩

theorem Carries.source {op : Operator} {m : Method} {receiver : Option Expr} {source : Expr}
    {rest : List Expr} {type : DataType} {a : Alias} (hop : op.IsCalled m (source :: rest))
    (hname : m.name ∈ Operator.rowPreserving) (h : source.Carries a) :
    (call m receiver (source :: rest) type).Carries a := by
  obtain ⟨n, hspine, ha⟩ := h
  exact ⟨n, .source hop hname hspine, ha⟩

/-- At the child with the position, the node lets the rows of the join with the alias be seen. -/
inductive Grants (a : Alias) : Expr → Nat → Prop
  | outerKey {label : JoinLabel} {outer inner outerKey innerKey : Expr} :
      outer.Carries a → Grants a (.navigationJoin label outer inner outerKey innerKey) 2
  | argument {op : Operator} {m : Method} {args : List Expr} {type : DataType} {i j : Nat}
      {arg source : Expr} {want : ArgShape} :
      op.IsCalled m args → args[i]? = some arg → arg.lambda?.isSome = true →
        op.params[j]? = some want → want.isSource = true → args[j]? = some source →
        source.Carries a → Grants a (.call m none args type) i

/-- At the position, some node on the way lets the rows of the join with the alias be seen. -/
def VisibleAt (e : Expr) (path : List Nat) (a : Alias) : Prop :=
  ∃ above i below n, path = above ++ i :: below ∧ e.at? above = some n ∧ Grants a n i

/-- Every reference to a joined row is one to an alias of a kind, or the row can be seen. -/
def RefersOnly (R : Alias → Prop) (e : Expr) : Prop :=
  ∀ path a entity, e.at? path = some (.sourceRef a entity) → R a ∨ e.VisibleAt path a

variable {R S : Alias → Prop} {e : Expr}

theorem RefersOnly.mono (h : e.RefersOnly R) (hRS : ∀ a, R a → S a) : e.RefersOnly S :=
  fun path a entity hat => (h path a entity hat).imp_left (hRS a)

/-- Nothing on the way to the root lets anything be seen. -/
theorem not_visibleAt_nil {a : Alias} : ¬ e.VisibleAt [] a := by
  rintro ⟨above, i, below, n, hpath, -⟩
  simp at hpath

theorem RefersOnly.sourceRef {a : Alias} {entity : String}
    (h : (Expr.sourceRef a entity).RefersOnly R) : R a :=
  (h [] a entity rfl).resolve_right not_visibleAt_nil

/-- What can be seen from a child can be seen from there in the whole tree. -/
theorem VisibleAt.child {c : Expr} {i : Nat} {path : List Nat} {a : Alias}
    (hc : e.children[i]? = some c) (h : c.VisibleAt path a) : e.VisibleAt (i :: path) a := by
  obtain ⟨above, j, below, n, rfl, hn, hgrants⟩ := h
  refine ⟨i :: above, j, below, n, rfl, ?_, hgrants⟩
  rw [at?, hc]
  exact hn

/-- The references of a node are those of its children. A child may also refer to what the node lets
it see. -/
theorem refersOnly_node (hroot : ∀ a entity, e = .sourceRef a entity → R a)
    (hchildren : ∀ (i : Nat) (c : Expr), e.children[i]? = some c →
      c.RefersOnly fun a => R a ∨ Grants a e i) :
    e.RefersOnly R := by
  intro path a entity hat
  cases path with
  | nil =>
    rw [at?, Option.some.injEq] at hat
    exact .inl (hroot a entity hat)
  | cons i path =>
    rw [at?, Option.bind_eq_some_iff] at hat
    obtain ⟨c, hc, hat⟩ := hat
    rcases hchildren i c hc path a entity hat with (hR | hgrants) | hvisible
    · exact .inl hR
    · exact .inr ⟨[], i, path, e, rfl, rfl, hgrants⟩
    · exact .inr (hvisible.child hc)

theorem refersOnly_of_children (hroot : ∀ a entity, e = .sourceRef a entity → R a)
    (hchildren : ∀ c ∈ e.children, c.RefersOnly R) : e.RefersOnly R := by
  apply refersOnly_node hroot
  intro i c hc
  exact (hchildren c (List.mem_of_getElem? hc)).mono fun a ha => .inl ha

/-- A node of the host language refers only to what its children refer to. -/
theorem refersOnly_of_not_isRelational (he : e.isRelational = false)
    (hchildren : ∀ c ∈ e.children, c.RefersOnly R) : e.RefersOnly R := by
  refine refersOnly_of_children (fun a entity heq => ?_) hchildren
  rw [heq] at he
  cases he

/-- If all nodes are of the host language or tables, then there is no reference to a joined row. -/
theorem refersOnly_of_everywhere
    (h : e.Everywhere fun n => ∀ a entity, n = .sourceRef a entity → R a) :
    e.RefersOnly R := by
  intro path a entity hat
  exact .inl (h _ (mem_nodes_iff.mpr ⟨path, hat⟩) a entity rfl)

end Expr

end QueryLowering
