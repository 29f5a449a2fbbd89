import QueryLowering.Proofs.RowSpine

/-!
Where functions end up. The resolution of functions hands down to every node the position in which it
stands. Followed from the root to a node of the result, the positions say just what surrounds the node:
one that may become a call of a table-valued function is the root, a source of an operator, the result of
a collection selector, or a child that supplies the rows of a relational node.
-/

namespace QueryLowering

open QueryLowering.Expr StateStep

namespace Expr

theorem exists_functionCall_of_kindName {e : Expr} (h : e.kindName = "FunctionCall") :
    ∃ f args, e = .functionCall f args := by
  cases e with
  | functionCall f args => exact ⟨f, args, rfl⟩
  | _ => simp [kindName] at h

theorem exists_tableFunction_of_kindName {e : Expr} (h : e.kindName = "TableValuedFunction") :
    ∃ row f args, e = .tableFunction row f args := by
  cases e with
  | tableFunction row f args => exact ⟨row, f, args, rfl⟩
  | _ => simp [kindName] at h

end Expr

namespace Pass.DatabaseFunction

variable {catalog : Catalog} {position : Position} {e e' n p : Expr} {s s' : State}

/-- The node calls a method whose functions are in the catalog, and for arguments of the types of the
given ones this function is chosen. -/
def Chooses (catalog : Catalog) (n : Expr) (f : DbFunction) (args : List Expr) : Prop :=
  ∃ m receiver given type set, n = .call m receiver given type ∧ catalog.find? m = some set ∧
    set.resolve (args.map Expr.type) = .ok f

theorem kind_eq_scalar {f : DbFunction} (h : f.isTableValued = false) : f.kind = .scalar := by
  unfold DbFunction.isTableValued at h
  cases hkind : f.kind with
  | scalar => rfl
  | tableValued =>
    rw [hkind] at h
    cases h

/-- What becomes of a node whose parts have been resolved. -/
inductive Becomes (catalog : Catalog) (position : Position) (n : Expr) : Expr → Prop
  | scalar {f : DbFunction} {args : List Expr} : Chooses catalog n f args → f.kind = .scalar →
      Becomes catalog position n (.functionCall f args)
  | table {row : Alias} {f : DbFunction} {args : List Expr} : Chooses catalog n f args →
      f.kind = .tableValued → position = .rows →
      Becomes catalog position n (.tableFunction row f args)
  | kept {cs : List Expr} : Kept catalog n → cs.length = n.children.length →
      Becomes catalog position n (n.setChildren cs)

/-- The step of a node: every part gives a child of what the node becomes. -/
theorem resolve_parts (h : (resolve catalog position n).Gives s p s') :
    Becomes catalog position n p ∧
      List.Forall₂ (fun c q => ∃ t t',
        (resolve catalog (partPosition catalog position n c.2 c.1) c.1).Gives t q t')
        (parts catalog n).zipIdx p.children := by
  obtain ⟨rs, t, hrs, hnode⟩ := resolve_cases h
  have hall := hrs.forall₂ (fun c q => ∃ t t',
    (resolve catalog (partPosition catalog position n c.2 c.1) c.1).Gives t q t')
    fun c _ t q t' hq => ⟨t, t', hq⟩
  rcases hnode with ⟨m, receiver, args, type, set, hn, hset, h⟩ | ⟨-, hkept, hlen, rfl⟩
  · rcases resolveCall_cases h with ⟨f, hf, hkind, rfl, -⟩ | ⟨f, hf, hkind, hrows, rfl, -⟩
    · exact ⟨.scalar ⟨m, receiver, args, type, set, hn, hset, hf⟩ (kind_eq_scalar hkind), hall⟩
    · exact ⟨.table ⟨m, receiver, args, type, set, hn, hset, hf⟩ (beq_iff_eq.mp hkind) hrows, hall⟩
  · refine ⟨.kept hkept hlen, ?_⟩
    rw [children_setChildren hlen]
    exact hall

/-- The node of the query from which the node at a position of the result comes. -/
def origin? (catalog : Catalog) (e : Expr) : List Nat → Option Expr
  | [] => some e
  | i :: path => (parts catalog e)[i]?.bind fun c => origin? catalog c path

theorem origin?_concat (e : Expr) (path : List Nat) (i : Nat) :
    origin? catalog e (path ++ [i]) =
      (origin? catalog e path).bind fun n => (parts catalog n)[i]? := by
  induction path generalizing e with
  | nil => simp [origin?]
  | cons j path ih =>
    rw [List.cons_append, origin?, origin?, Option.bind_assoc]
    exact congrArg _ (funext ih)

/-- At the position of the result stands a call that is the call of an operator in the query. -/
inductive OperatorCall (catalog : Catalog) (e e' : Expr) (path : List Nat) (op : Operator) : Prop
  | mk {m : Method} {args args' : List Expr} {type : DataType} :
      origin? catalog e path = some (.call m none args type) → catalog.find? m = none →
      Operator.findFor? m args = some op → e'.at? path = some (.call m none args' type) →
      OperatorCall catalog e e' path op

/-- The position is that of the second argument of a call of `SelectMany`, or of what is quoted
there. -/
inductive Selector (catalog : Catalog) (e e' : Expr) : List Nat → Prop
  | argument {path : List Nat} {op : Operator} : OperatorCall catalog e e' path op →
      op.name = "SelectMany" → Selector catalog e e' (path ++ [1])
  | quoted {path : List Nat} {inner : Expr} : Selector catalog e e' path →
      e'.at? path = some (.quote inner) → Selector catalog e e' (path ++ [0])

/-- What stands at the position supplies rows: it is the root, an argument in place of a sequence or a
query, the body of a collection selector, or a child that supplies the rows of its node. -/
inductive SuppliesRows (catalog : Catalog) (e e' : Expr) : List Nat → Prop
  | root : SuppliesRows catalog e e' []
  | argument {path : List Nat} {op : Operator} {i : Nat} {want : ArgShape} :
      OperatorCall catalog e e' path op → op.params[i]? = some want → want.isSource = true →
      SuppliesRows catalog e e' (path ++ [i])
  | body {path : List Nat} {params : List Param} {body : Expr} : Selector catalog e e' path →
      e'.at? path = some (.lambda params body) → SuppliesRows catalog e e' (path ++ [0])
  | child {path : List Nat} {n : Expr} {i : Nat} : e'.at? path = some n →
      n.isRowSourceChild i = true → SuppliesRows catalog e e' (path ++ [i])

/-- What a position that is handed down promises of the surroundings. -/
def Fits (catalog : Catalog) (e e' : Expr) (path : List Nat) : Position → Prop
  | .value => True
  | .rows => SuppliesRows catalog e e' path
  | .rowsSelector => Selector catalog e e' path

/-- A call in the result is one that the catalog does not know. -/
theorem Becomes.find?_eq_none {m : Method} {receiver : Option Expr} {args : List Expr} {type : DataType}
    (h : Becomes catalog position n (.call m receiver args type)) : catalog.find? m = none := by
  generalize hp : Expr.call m receiver args type = p at h
  cases h with
  | scalar => cases hp
  | table => cases hp
  | @kept cs hkept =>
    have hmethod : n.method? = some m := by
      rw [← method?_setChildren n cs, ← hp]
      rfl
    cases n with
    | call m' receiver' given type' =>
      cases hmethod
      exact (hkept _ _ _ _ rfl).1
    | _ => cases hmethod

/-- A node is of the kind of the node that it comes from, unless it calls the function that has been
chosen for that one. -/
theorem Becomes.kindName_eq_or (h : Becomes catalog position n p) :
    p.kindName = n.kindName ∨ ∃ f args, Chooses catalog n f args ∧
      ((p = .functionCall f args ∧ f.kind = .scalar) ∨
        ∃ row, p = .tableFunction row f args ∧ f.kind = .tableValued ∧ position = .rows) := by
  cases h with
  | scalar hchooses hkind => exact .inr ⟨_, _, hchooses, .inl ⟨rfl, hkind⟩⟩
  | table hchooses hkind hrows => exact .inr ⟨_, _, hchooses, .inr ⟨_, rfl, hkind, hrows⟩⟩
  | kept => exact .inl (kindName_setChildren n _)

/-- A node of another kind than a call is put together again. -/
theorem Becomes.exists_setChildren (h : Becomes catalog position n p)
    (hkind : n.kindName ≠ "MethodCall") :
    ∃ cs, cs.length = n.children.length ∧ p = n.setChildren cs := by
  have hcall : ∀ {f : DbFunction} {args : List Expr}, ¬ Chooses catalog n f args := by
    rintro f args ⟨m, receiver, given, type, set, rfl, -⟩
    exact hkind rfl
  cases h with
  | scalar hchooses => exact absurd hchooses hcall
  | table hchooses => exact absurd hchooses hcall
  | kept _ hlen => exact ⟨_, hlen, rfl⟩

/-- The arguments of an operator stand where its parameters say. -/
theorem fits_argument {path : List Nat} {m : Method} {args args' : List Expr} {type : DataType}
    {op : Operator} {c : Expr} {i : Nat}
    (horigin : origin? catalog e path = some (.call m none args type))
    (hset : catalog.find? m = none) (hop : Operator.findFor? m args = some op)
    (hp : e'.at? path = some (.call m none args' type)) (hc : args[i]? = some c) :
    Fits catalog e e' (path ++ [i]) (argPosition m.name i c) := by
  have hcall : OperatorCall catalog e e' path op := ⟨horigin, hset, hop, hp⟩
  obtain ⟨hcalled, hshapes⟩ := Operator.isCalled_of_findFor? hop
  obtain ⟨want, hwant, hshape⟩ := exists_getElem?_of_forall₂ hshapes hc
  have hsource : (ArgShape.of c).isSource = true → SuppliesRows catalog e e' (path ++ [i]) :=
    fun h => .argument hcall hwant (hshape.trans h)
  have hlambda : Fits catalog e e' (path ++ [i])
      (if m.name = "SelectMany" ∧ i = 1 then .rowsSelector else .value) := by
    split
    · rename_i hselector
      obtain ⟨hname, rfl⟩ := hselector
      exact Selector.argument hcall (hcalled.name_eq.trans hname)
    · trivial
  unfold argPosition
  cases hof : ArgShape.of c with
  | sequence => exact hsource (by rw [hof]; rfl)
  | queryable => exact hsource (by rw [hof]; rfl)
  | lambda => exact hlambda
  | quotedLambda => exact hlambda
  | value => trivial

/-- The step of a position: what it promises holds of every part of the node, if it does so of the
node. -/
theorem fits_part {path : List Nat} {c : Expr} {i : Nat} (horigin : origin? catalog e path = some n)
    (hp : e'.at? path = some p) (hbecomes : Becomes catalog position n p)
    (hfits : Fits catalog e e' path position) (hc : (parts catalog n)[i]? = some c) :
    Fits catalog e e' (path ++ [i]) (partPosition catalog position n i c) := by
  cases n with
  | call m receiver args type =>
    simp only [partPosition]
    split
    · rename_i hoperator
      obtain ⟨hset, hop⟩ := hoperator
      rw [Option.isNone_iff_eq_none] at hset
      -- A call with overloads is resolved, but this one has none and calls an operator.
      cases hbecomes with
      | scalar hchooses =>
        obtain ⟨m', receiver', given, type', set, hn, hset', -⟩ := hchooses
        cases hn
        cases hset.symm.trans hset'
      | table hchooses =>
        obtain ⟨m', receiver', given, type', set, hn, hset', -⟩ := hchooses
        cases hn
        cases hset.symm.trans hset'
      | kept hkept =>
        cases (hkept m receiver args type rfl).2 hop
        obtain ⟨op, hop⟩ := Option.isSome_iff_exists.mp hop
        refine fits_argument horigin hset hop hp ?_
        simpa [parts, hset] using hc
    · trivial
  | quote inner =>
    obtain ⟨cs, hlen, rfl⟩ := hbecomes.exists_setChildren (by simp [kindName])
    obtain ⟨q, rfl⟩ := List.length_eq_one_iff.mp hlen
    have hi : i = 0 := by
      have hlt := (List.getElem?_eq_some_iff.mp hc).1
      simpa [parts, children] using hlt
    subst hi
    simp only [partPosition]
    split
    · rename_i hselector
      subst hselector
      exact Selector.quoted hfits hp
    · trivial
  | lambda params body =>
    obtain ⟨cs, hlen, rfl⟩ := hbecomes.exists_setChildren (by simp [kindName])
    obtain ⟨q, rfl⟩ := List.length_eq_one_iff.mp hlen
    have hi : i = 0 := by
      have hlt := (List.getElem?_eq_some_iff.mp hc).1
      simpa [parts, children] using hlt
    subst hi
    simp only [partPosition]
    split
    · rename_i hselector
      subst hselector
      exact SuppliesRows.body hfits hp
    · trivial
  | _ =>
    obtain ⟨cs, -, rfl⟩ := hbecomes.exists_setChildren (by simp [kindName])
    simp only [partPosition, childPosition]
    split
    · rename_i hchild
      exact SuppliesRows.child hp (by rw [isRowSourceChild_setChildren, hchild])
    · trivial

/-- Every node of the result comes from a node of the query, in a position that fits its
surroundings. -/
theorem exists_origin (h : (resolve catalog .rows e).Gives s e' s') {path : List Nat}
    (hp : e'.at? path = some p) :
    ∃ n position t t', origin? catalog e path = some n ∧
      (resolve catalog position n).Gives t p t' ∧ Fits catalog e e' path position := by
  induction path using List.reverseRecOn generalizing p with
  | nil =>
    cases hp
    exact ⟨e, .rows, s, s', rfl, h, .root⟩
  | append_singleton path i ih =>
    rw [at?_concat] at hp
    obtain ⟨q, hq, hpi⟩ := Option.bind_eq_some_iff.mp hp
    obtain ⟨n, position, t, t', horigin, hgives, hfits⟩ := ih hq
    obtain ⟨hbecomes, hall⟩ := resolve_parts hgives
    obtain ⟨⟨c, j⟩, hc, u, u', hgives'⟩ := exists_getElem?_of_forall₂ hall hpi
    rw [List.getElem?_zipIdx] at hc
    obtain ⟨d, hd, hpair⟩ := Option.map_eq_some_iff.mp hc
    cases hpair
    rw [Nat.zero_add] at hgives'
    refine ⟨c, _, u, u', ?_, hgives', fits_part horigin hq hbecomes hfits hd⟩
    rw [origin?_concat, horigin]
    exact hd

/-- What a node comes from is a node of the query. -/
theorem mem_nodes_of_origin? {path : List Nat} (h : origin? catalog e path = some n) :
    n ∈ e.nodes := by
  induction path generalizing e with
  | nil =>
    cases h
    exact self_mem_nodes _
  | cons i path ih =>
    obtain ⟨c, hc, hn⟩ := Option.bind_eq_some_iff.mp h
    exact mem_nodes_of_mem_children (mem_children_of_mem_parts (List.mem_of_getElem? hc)) (ih hn)

/-- A query without resolved functions keeps no call that the catalog knows, resolves every function
for the final arguments of its call, and has functions that give rows only where rows are supplied. -/
theorem functions_resolved_in_place {ctx : Context}
    (hfunction : ∀ f args, .functionCall f args ∉ e.nodes)
    (htable : ∀ row f args, .tableFunction row f args ∉ e.nodes)
    (h : (databaseFunction.run ctx e).Gives s e' s') :
    (∀ m receiver args type, .call m receiver args type ∈ e'.nodes → ctx.catalog.find? m = none) ∧
    (∀ path f args, e'.at? path = some (.functionCall f args) → f.kind = .scalar ∧
      ∃ n, origin? ctx.catalog e path = some n ∧ Chooses ctx.catalog n f args) ∧
    ∀ path row f args, e'.at? path = some (.tableFunction row f args) → f.kind = .tableValued ∧
      (∃ n, origin? ctx.catalog e path = some n ∧ Chooses ctx.catalog n f args) ∧
      SuppliesRows ctx.catalog e e' path := by
  have horigin : ∀ path p, e'.at? path = some p → ∃ n position,
      origin? ctx.catalog e path = some n ∧ Becomes ctx.catalog position n p ∧
        Fits ctx.catalog e e' path position := by
    intro path p hp
    obtain ⟨n, position, t, t', hn, hgives, hfits⟩ := exists_origin h hp
    exact ⟨n, position, hn, (resolve_parts hgives).1, hfits⟩
  refine ⟨fun m receiver args type hmem => ?_, fun path f args hp => ?_, fun path row f args hp => ?_⟩
  · obtain ⟨path, hp⟩ := mem_nodes_iff.mp hmem
    obtain ⟨n, position, -, hbecomes, -⟩ := horigin path _ hp
    exact hbecomes.find?_eq_none
  · obtain ⟨n, position, hn, hbecomes, -⟩ := horigin path _ hp
    -- The query has no such node itself, so this one was put in for a call.
    rcases hbecomes.kindName_eq_or with hkind | ⟨g, given, hchooses, ⟨heq, hscalar⟩ | ⟨a, heq, -⟩⟩
    · obtain ⟨g, given, rfl⟩ := exists_functionCall_of_kindName hkind.symm
      exact absurd (mem_nodes_of_origin? hn) (hfunction g given)
    · cases heq
      exact ⟨hscalar, n, hn, hchooses⟩
    · cases heq
  · obtain ⟨n, position, hn, hbecomes, hfits⟩ := horigin path _ hp
    rcases hbecomes.kindName_eq_or with hkind | ⟨g, given, hchooses, ⟨heq, -⟩ | ⟨a, heq, htableValued, rfl⟩⟩
    · obtain ⟨b, g, given, rfl⟩ := exists_tableFunction_of_kindName hkind.symm
      exact absurd (mem_nodes_of_origin? hn) (htable b g given)
    · cases heq
    · cases heq
      exact ⟨htableValued, ⟨n, hn, hchooses⟩, hfits⟩

/-- Of the recent orders of every customer those with a certain status, for some ways to read recent
orders and to compare statuses. -/
def ordersByStatus (recent sounds : Expr → Expr) : Expr :=
  let c : Param := ⟨"c", .entity "Customer"⟩
  let o : Param := ⟨"o", .entity "Order"⟩
  .call ⟨"Queryable", "Where", []⟩ none
    [.call ⟨"Queryable", "SelectMany", []⟩ none
      [.entitySet "Customer", .quote (.lambda [c] (recent (.member (.param c) "Id" .int32)))]
      (.queryable (.entity "Order")),
     .quote (.lambda [o] (.binary .eq (sounds (.member (.param o) "Status" .utf8))
      (.literal (.utf8 "O163"))))]
    (.queryable (.entity "Order"))

/-- Both are methods that the catalog knows. -/
def calledByStatus : Expr :=
  ordersByStatus recentOrders fun status =>
    .call ⟨Sample.functionOwner, "Soundex", []⟩ none [status] .utf8

/-- Both are functions of the database. -/
def resolvedByStatus : Expr :=
  ordersByStatus
    (fun days => .tableFunction ⟨0⟩
      ⟨"recent_orders", some "sales", .tableValued, ⟨[.int32], none, .queryable (.entity "Order")⟩⟩
      [days])
    fun status => .functionCall ⟨"soundex", none, .scalar, ⟨[.utf8], none, .utf8⟩⟩ [status]

theorem selector_of_orders_supplies_rows :
    (∀ f args, .functionCall f args ∉ calledByStatus.nodes) ∧
      (∀ row f args, .tableFunction row f args ∉ calledByStatus.nodes) ∧
      (databaseFunction.run ⟨Sample.model, Sample.catalog⟩ calledByStatus).Gives .fresh
        resolvedByStatus { nextAlias := 1 } ∧
      SuppliesRows Sample.catalog calledByStatus resolvedByStatus [0, 1, 0, 0] := by
  have hnodes : (calledByStatus.nodes.all fun n => !n.isRelational) = true := by cbv
  have hfunction : ∀ f args, .functionCall f args ∉ calledByStatus.nodes := by
    intro f args hmem
    exact absurd (List.all_eq_true.mp hnodes _ hmem) Bool.false_ne_true
  have htable : ∀ row f args, .tableFunction row f args ∉ calledByStatus.nodes := by
    intro row f args hmem
    exact absurd (List.all_eq_true.mp hnodes _ hmem) Bool.false_ne_true
  have hrun : (databaseFunction.run ⟨Sample.model, Sample.catalog⟩ calledByStatus).Gives .fresh
      resolvedByStatus { nextAlias := 1 } := by
    unfold Gives
    cbv
  obtain ⟨-, -, hrows⟩ := functions_resolved_in_place hfunction htable hrun
  exact ⟨hfunction, htable, hrun, (hrows [0, 1, 0, 0] _ _ _ rfl).2.2⟩

end Pass.DatabaseFunction

end QueryLowering
