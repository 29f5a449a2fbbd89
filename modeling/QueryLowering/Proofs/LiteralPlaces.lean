import QueryLowering.Proofs.Extraction
import QueryLowering.Proofs.Verification

/-!
Where the literals of a query go. The placeholders of a shape stand in the order of the parameters,
each of them once; at every other position the shape has the node of the query, with all children
that extraction does not enter. Nothing can be extracted from a shape, so extraction is undone by
one step and ends after one.
-/

namespace QueryLowering.Literals

open QueryLowering.Expr

variable {e n : Expr} {path : List Nat}

/-- The names that the nodes of a tree refer to, from left to right. -/
def referred (e : Expr) : List String :=
  e.nodes.filterMap fun
    | .param p => some p.name
    | _ => none

theorem referred_param (p : Param) : referred (.param p) = [p.name] := by
  unfold referred
  rw [nodes_eq]
  rfl

theorem referred_node {e : Expr} (h : ∀ p, e ≠ .param p) :
    referred e = e.children.flatMap referred := by
  unfold referred
  rw [nodes_eq, List.filterMap_cons_none, List.filterMap_flatMap]
  cases e with
  | param p => exact absurd rfl (h p)
  | _ => rfl

theorem mem_referred {name : String} :
    name ∈ referred e ↔ ∃ p, .param p ∈ e.nodes ∧ p.name = name := by
  unfold referred
  rw [List.mem_filterMap]
  constructor
  · rintro ⟨n, hn, hname⟩
    cases n with
    | param p => exact ⟨p, hn, Option.some.inj hname⟩
    | _ => cases hname
  · rintro ⟨p, hp, rfl⟩
    exact ⟨.param p, hp, rfl⟩

/-- The names of the first parameters. -/
def givenOut (n : Nat) : List String := (List.range n).map paramName

theorem mem_givenOut {n : Nat} {name : String} :
    name ∈ givenOut n ↔ ∃ k < n, paramName k = name := by
  simp [givenOut]

/-- Those of the names that are given out that a tree refers to, from left to right. -/
def placeholders (n : Nat) (e : Expr) : List String := (referred e).filter (· ∈ givenOut n)

theorem placeholders_setChildren {N : Nat} {cs : List Expr} (h : ¬ ∃ p, e = .param p)
    (hlen : cs.length = e.children.length) :
    placeholders N (e.setChildren cs) = cs.flatMap (placeholders N) := by
  have hne : ∀ p, e.setChildren cs ≠ .param p := fun p hp => h ⟨p, eq_param_of_setChildren hp⟩
  unfold placeholders
  rw [referred_node hne, children_setChildren hlen, List.filter_flatMap]

theorem Avoids.placeholders_eq_nil {N : Nat} (h : Avoids N e) : placeholders N e = [] := by
  refine List.filter_eq_nil_iff.mpr fun name hname hgiven => ?_
  obtain ⟨p, hp, rfl⟩ := mem_referred.mp hname
  obtain ⟨k, hk, hpk⟩ := mem_givenOut.mp (of_decide_eq_true hgiven)
  exact h p hp k hk hpk.symm

/-- The names from a number on, one for each literal. -/
def namesFrom (n : Nat) (literals : List (Constant Expr × DataType)) : List String :=
  (List.range' n literals.length).map paramName

theorem namesFrom_append (n : Nat) (as bs : List (Constant Expr × DataType)) :
    namesFrom n (as ++ bs) = namesFrom n as ++ namesFrom (n + as.length) bs := by
  unfold namesFrom
  rw [List.length_append, ← List.range'_append_1, List.map_append]

theorem map_name_numberedFrom (n : Nat) (literals : List (Constant Expr × DataType)) :
    (numberedFrom n literals).map QueryParameter.name = namesFrom n literals := by
  unfold numberedFrom namesFrom
  rw [List.map_map, ← List.zipIdx_map_snd n literals, List.map_map]
  rfl

section Lists

variable {α : Type} {run : α → StateM (List QueryParameter) Expr} {xs : List α}

theorem run_mapM_cons (x : α) (ps : List QueryParameter) :
    (((x :: xs).mapM run).run ps).1 =
      ((run x).run ps).1 :: ((xs.mapM run).run ((run x).run ps).2).1 := by
  rw [List.mapM_cons]
  rfl

theorem length_run_mapM (ps : List QueryParameter) :
    ((xs.mapM run).run ps).1.length = xs.length := by
  induction xs generalizing ps with
  | nil => rfl
  | cons x xs ih => rw [run_mapM_cons, List.length_cons, List.length_cons, ih]

/-- If the result of every step has the placeholders for its literals, then all results together
have the placeholders for all literals. -/
theorem placeholders_run_mapM {literals : α → List (Constant Expr × DataType)} {N : Nat}
    (h : ∀ x ∈ xs, ∀ ps, ((run x).run ps).2 = ps ++ numberedFrom ps.length (literals x))
    (hnames : ∀ x ∈ xs, ∀ ps : List QueryParameter, ps.length + (literals x).length ≤ N →
      placeholders N ((run x).run ps).1 = namesFrom ps.length (literals x))
    (ps : List QueryParameter) (hN : ps.length + (xs.flatMap literals).length ≤ N) :
    ((xs.mapM run).run ps).1.flatMap (placeholders N) =
      namesFrom ps.length (xs.flatMap literals) := by
  induction xs generalizing ps with
  | nil => rfl
  | cons x xs ih =>
    rw [List.flatMap_cons, List.length_append] at hN
    have hlen : ((run x).run ps).2.length = ps.length + (literals x).length := by
      rw [h x List.mem_cons_self, List.length_append, length_numberedFrom]
    have hx := hnames x List.mem_cons_self ps (by omega)
    have hxs := ih (fun y hy => h y (List.mem_cons_of_mem _ hy))
      (fun y hy => hnames y (List.mem_cons_of_mem _ hy)) ((run x).run ps).2 (by omega)
    rw [run_mapM_cons, List.flatMap_cons, hx, hxs, hlen, List.flatMap_cons, namesFrom_append]

end Lists

/-- A tree that does not refer to the names given out gets the placeholders of its literals, in the
order of the literals. -/
theorem placeholders_extractM {N : Nat} (havoids : Avoids N e) (ps : List QueryParameter)
    (hN : ps.length + (extracted e).length ≤ N) :
    placeholders N ((extractM e).run ps).1 = namesFrom ps.length (extracted e) := by
  induction e using literalInduction generalizing ps with
  | literal v type hliteral =>
    rw [extracted_literal hliteral] at hN ⊢
    have hgiven : paramName ps.length ∈ givenOut N :=
      mem_givenOut.mpr ⟨ps.length, hN, rfl⟩
    rw [run_extractM_literal hliteral, placeholders, referred_param]
    simp [hgiven, namesFrom]
  | node e hliteral ih =>
    rw [extracted_node hliteral] at hN ⊢
    rw [extractM_node hliteral]
    by_cases hparam : ∃ p, e = .param p
    · obtain ⟨p, rfl⟩ := hparam
      exact havoids.placeholders_eq_nil
    -- The children are gone through one after the other; those that are not entered have none.
    have hkids : ((e.children.zipIdx.mapM fun c =>
        if skips e c.2 then pure c.1 else extractM c.1).run ps).1.flatMap (placeholders N) =
        namesFrom ps.length
          (e.children.zipIdx.flatMap fun c => if skips e c.2 then [] else extracted c.1) := by
      refine placeholders_run_mapM (fun c _ ps => ?_) (fun c hc ps hps => ?_) ps hN
      · split
        · exact (List.append_nil ps).symm
        · exact snd_run_extractM c.1 ps
      · have hchild := havoids.child (List.fst_mem_of_mem_zipIdx hc)
        split
        · exact hchild.placeholders_eq_nil
        · rename_i hskips
          rw [if_neg hskips] at hps
          exact ih c.1 (List.fst_mem_of_mem_zipIdx hc) hchild ps hps
    have hlen : ((e.children.zipIdx.mapM fun c =>
        if skips e c.2 then pure c.1 else extractM c.1).run ps).1.length =
          e.children.length := by
      rw [length_run_mapM, List.length_zipIdx]
    exact (placeholders_setChildren hparam hlen).trans hkids

theorem placeholders_extract (h : Avoids (extracted e).length e) :
    placeholders (extracted e).length (extract e).1 = givenOut (extracted e).length := by
  have hplaces := placeholders_extractM h [] (Nat.zero_add _).le
  rwa [namesFrom, List.length_nil, ← List.range_eq_range'] at hplaces

/-- What extraction makes of a single node: a placeholder if it is a literal, or else the same node,
with those children that are not entered. -/
inductive Shapes (n : Expr) : Expr → Prop
  | placeholder {p : Param} : isLiteralNode n = true → Shapes n (.param p)
  | kept {cs : List Expr} :
      List.Forall₂ (fun c d => skips n c.2 = true → d = c.1) n.children.zipIdx cs →
      Shapes n (n.setChildren cs)

theorem Shapes.self (n : Expr) : Shapes n n := by
  have hkept := Shapes.kept (skipped_self n)
  rwa [setChildren_children] at hkept

/-- The children of a node and those that it is rebuilt from, by their index. -/
theorem exists_getElem?_children {R : Expr × Nat → Expr → Prop} {cs : List Expr}
    (h : List.Forall₂ R e.children.zipIdx cs) {i : Nat} {c : Expr} (hc : e.children[i]? = some c) :
    ∃ d, (e.setChildren cs).children[i]? = some d ∧ R (c, i) d := by
  have hlen : cs.length = e.children.length := by simpa using h.length_eq.symm
  have hzip : e.children.zipIdx[i]? = some (c, i) := by
    rw [List.getElem?_zipIdx, hc, Option.map_some, Nat.zero_add]
  rw [children_setChildren hlen]
  exact exists_getElem?_of_forall₂ h.flip hzip

/-- The shape has all positions of the query. The induction is along the extraction; below a child
that is not entered, the nodes are the same. -/
theorem exists_shapes_at? (h : e.at? path = some n) :
    ∃ n', (extract e).1.at? path = some n' ∧ Shapes n n' := by
  revert path n
  refine extract_induction (P := fun x shape => ∀ {path n}, x.at? path = some n →
    ∃ n', shape.at? path = some n' ∧ Shapes n n') e (fun k v type hv _ path n h => ?_)
    fun x cs _ hcs path n h => ?_
  · cases path with
    | nil =>
      cases h
      exact ⟨_, rfl, .placeholder hv⟩
    | cons i path => cases h
  · cases path with
    | nil =>
      cases h
      refine ⟨_, rfl, .kept (hcs.imp fun c d hd hskips => ?_)⟩
      rwa [if_pos hskips] at hd
    | cons i path =>
      obtain ⟨c, hc, hn⟩ := Option.bind_eq_some_iff.mp h
      obtain ⟨d, hd, hcd⟩ := exists_getElem?_children hcs hc
      rw [at?, hd, Option.bind_some]
      split at hcd
      · rw [hcd]
        exact ⟨n, hn, .self n⟩
      · exact hcd hn

/-- Constants that decide how a query is lowered. -/
inductive Fixed : Constant Expr → Prop
  | null {v : Scalar} : v.isNull = true → Fixed (.scalar v)
  | entitySet {entity : String} : Fixed (.entitySet entity)
  | delegate {name : String} {body : Option Expr} : Fixed (.delegate name body)

theorem Fixed.isLiteral {v : Constant Expr} (h : Fixed v) : isLiteral v = false := by
  cases h with
  | null hnull =>
    rw [Literals.isLiteral, hnull]
    rfl
  | entitySet => rfl
  | delegate => rfl

/-- Constants other than literals stay where they are. -/
theorem at?_extract_fixed {v : Constant Expr} {type : DataType} (hv : Fixed v)
    (h : e.at? path = some (.const v type)) :
    (extract e).1.at? path = some (.const v type) := by
  obtain ⟨n', hn', hshapes⟩ := exists_shapes_at? h
  cases hshapes with
  | placeholder hliteral => exact absurd hliteral (by rw [isLiteralNode, hv.isLiteral]; decide)
  | kept _ => exact hn'

/-- All arguments of a marker but its source stay where they are. -/
theorem at?_extract_marker {m : Method} {receiver : Option Expr} {args : List Expr}
    {type : DataType} {i : Nat} {c : Expr} (hm : (Marker.of? m).isSome = true) (hi : i ≠ 0)
    (h : e.at? path = some (.call m receiver args type)) (hc : e.at? (path ++ [i]) = some c) :
    (extract e).1.at? (path ++ [i]) = some c := by
  obtain ⟨n', hn', hshapes⟩ := exists_shapes_at? h
  rw [at?_concat, h, Option.bind_some] at hc
  rw [at?_concat, hn', Option.bind_some]
  cases hshapes with
  | placeholder hliteral => cases hliteral
  | kept hcs =>
    obtain ⟨d, hd, hcd⟩ := exists_getElem?_children hcs hc
    rw [hd, hcd (by simp [skips, hm, hi])]

theorem isLiteralNode_setChildren (e : Expr) (cs : List Expr) :
    isLiteralNode (e.setChildren cs) = isLiteralNode e := by
  unfold setChildren
  split <;> rfl

theorem skips_setChildren (e : Expr) (cs : List Expr) (i : Nat) :
    skips (e.setChildren cs) i = skips e i := by
  unfold setChildren
  split <;> rfl

theorem extracted_extract (e : Expr) : extracted (extract e).1 = [] := by
  refine extract_induction (P := fun _ shape => extracted shape = []) e
    (fun k v type _ _ => extracted_node rfl) fun x cs hliteral hcs => ?_
  have hlen : cs.length = x.children.length := by simpa using hcs.length_eq.symm
  rw [extracted_node (by rw [isLiteralNode_setChildren, hliteral]), children_setChildren hlen,
    List.flatMap_eq_nil_iff]
  rintro ⟨d, i⟩ hd
  rw [skips_setChildren]
  obtain ⟨c, hc, hcd⟩ := exists_getElem?_of_forall₂ hcs (List.mem_zipIdx_iff_getElem?.mp hd)
  rw [List.getElem?_zipIdx, Nat.zero_add] at hc
  obtain ⟨c, -, rfl⟩ := Option.map_eq_some_iff.mp hc
  split
  · rfl
  · rename_i hskips
    rwa [if_neg hskips] at hcd

theorem extract_extract (e : Expr) : extract (extract e).1 = ((extract e).1, []) :=
  extract_eq_of_extracted_eq_nil (extracted_extract e)

/-- The parameters of a query that does not refer to their names are numbered in the order in which
the shape refers to them, once to each, and put back they give the query. Nulls, entity sets,
delegates and all arguments of markers but their sources stay where they are, and the shape is its
own shape. -/
theorem extraction_undone {s : Expr} {ps : List QueryParameter} (hextract : extract e = (s, ps))
    (h : ∀ p, .param p ∈ e.nodes → ∀ k < ps.length, p.name ≠ paramName k) :
    ps.map QueryParameter.name = (List.range ps.length).map paramName ∧
      (referred s).filter (· ∈ ps.map QueryParameter.name) = ps.map QueryParameter.name ∧
      restore ps s = e ∧
      (∀ path v type, Fixed v → e.at? path = some (.const v type) →
        s.at? path = some (.const v type)) ∧
      (∀ path m receiver args type, e.at? path = some (.call m receiver args type) →
        (Marker.of? m).isSome = true → ∀ i ≠ 0, ∀ c, e.at? (path ++ [i]) = some c →
        s.at? (path ++ [i]) = some c) ∧
      extract s = (s, []) := by
  obtain rfl : (extract e).1 = s := congrArg Prod.fst hextract
  obtain rfl : (extract e).2 = ps := congrArg Prod.snd hextract
  have hlength : (extract e).2.length = (extracted e).length := by
    rw [extract_parameters, length_numberedFrom]
  have hnames : (extract e).2.map QueryParameter.name = givenOut (extract e).2.length := by
    rw [hlength, extract_parameters, map_name_numberedFrom, namesFrom, ← List.range_eq_range',
      givenOut]
  have havoids : Avoids (extracted e).length e := by
    rw [← hlength]
    exact h
  refine ⟨hnames, ?_, restore_extract havoids, fun _ _ _ hv hn => at?_extract_fixed hv hn,
    fun _ _ _ _ _ hn hm _ hi _ hc => at?_extract_marker hm hi hn hc, extract_extract e⟩
  rw [hnames, hlength]
  exact placeholders_extract havoids

/-- A tagged choice between all orders and some others, by the status and the number of an order. -/
def reportOn (status bound : Expr) : Expr :=
  .call ⟨"Queryable", "TagWith", [.entity "Order"]⟩ none
    [.cond
      (.binary .and
        (.binary .or
          (.binary .eq (.member (.param ⟨"o", .entity "Order"⟩) "Status" .utf8) status)
          (.binary .eq (.member (.param ⟨"o", .entity "Order"⟩) "Status" .utf8) (.nullOf .utf8)))
        (.binary .lt (.member (.param ⟨"o", .entity "Order"⟩) "Id" .int32) bound))
      (.entitySet "Order") (.param ⟨"others", .queryable (.entity "Order")⟩)
      (.queryable (.entity "Order")), .literal (.utf8 "report")] (.queryable (.entity "Order"))

theorem extraction_undone_reportOn :
    Avoids 2 (reportOn (.literal (.utf8 "open")) (.literal (.int32 10))) ∧
      extract (reportOn (.literal (.utf8 "open")) (.literal (.int32 10))) =
        (reportOn (.param ⟨"__p_0", .utf8⟩) (.param ⟨"__p_1", .int32⟩),
          [⟨"__p_0", .scalar (.utf8 "open")⟩, ⟨"__p_1", .scalar (.int32 10)⟩]) ∧
      restore [⟨"__p_0", .scalar (.utf8 "open")⟩, ⟨"__p_1", .scalar (.int32 10)⟩]
          (reportOn (.param ⟨"__p_0", .utf8⟩) (.param ⟨"__p_1", .int32⟩)) =
        reportOn (.literal (.utf8 "open")) (.literal (.int32 10)) ∧
      extract (reportOn (.param ⟨"__p_0", .utf8⟩) (.param ⟨"__p_1", .int32⟩)) =
        (reportOn (.param ⟨"__p_0", .utf8⟩) (.param ⟨"__p_1", .int32⟩), []) := by
  have hextract : extract (reportOn (.literal (.utf8 "open")) (.literal (.int32 10))) =
      (reportOn (.param ⟨"__p_0", .utf8⟩) (.param ⟨"__p_1", .int32⟩),
        [⟨"__p_0", .scalar (.utf8 "open")⟩, ⟨"__p_1", .scalar (.int32 10)⟩]) := by cbv
  have hnames : (reportOn (.literal (.utf8 "open")) (.literal (.int32 10))).names =
      ["o", "o", "o", "others"] := by
    simp [reportOn, names_eq, parts, children, ownNames, Expr.literal, Expr.nullOf, Expr.entitySet]
  have havoids := avoids_of_unreserved (unreserved_of_names hnames (by decide)) 2
  obtain ⟨-, -, hrestore, -, -, hagain⟩ := extraction_undone hextract havoids
  exact ⟨havoids, hextract, hrestore, hagain⟩

end QueryLowering.Literals
