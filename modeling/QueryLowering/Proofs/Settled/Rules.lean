import QueryLowering.Proofs.KeyTests

/-!
Trees that local rules leave as they are. A traversal from the leaves to the root gives a tree back
exactly if its rule gives back every single node of the tree. One direction needs that a rule never
makes up for what was changed below: the rules of the passes change the method of a call, or turn a
node into one of another kind, except that a comparison by one key is a comparison again.
-/

namespace QueryLowering

open QueryLowering.Expr

variable {e : Expr}

theorem Expr.setChildren_injective {cs ds : List Expr} (hcs : cs.length = e.children.length)
    (hds : ds.length = e.children.length) (h : e.setChildren cs = e.setChildren ds) : cs = ds := by
  rw [← children_setChildren hcs, h, children_setChildren hds]

theorem Expr.eq_children_of_setChildren_eq {cs : List Expr} (hcs : cs.length = e.children.length)
    (h : e.setChildren cs = e) : cs = e.children :=
  setChildren_injective hcs rfl (h.trans (setChildren_children e).symm)

section Traversal

variable {σ : Type} {I : σ → Prop} {s s' : σ}

/-- A traversal that gives back a node has given back its children. -/
theorem exists_gives_child_of_traverse {f : Expr → StateStep σ Expr}
    (h : (e.traverse fun c _ => f c).Gives s e s') :
    ∀ c ∈ e.children, ∃ t t', (f c).Gives t c t' := by
  rw [traverse_eq, StateStep.gives_map] at h
  obtain ⟨cs, hcs, hset⟩ := h
  have hall := hcs.forall₂ (fun c d => ∃ t t', (f c).Gives t d t') fun c _ t d t' hd => ⟨t, t', hd⟩
  cases eq_children_of_setChildren_eq hall.length_eq.symm hset
  exact List.forall₂_same.mp hall

theorem exists_gives_child_of_traverseIdx {f : Nat → Expr → StateStep σ Expr}
    (h : (e.traverseIdx fun i c _ => f i c).Gives s e s') :
    ∀ c ∈ e.children, ∃ i t t', (f i c).Gives t c t' := by
  rw [traverseIdx_eq, StateStep.gives_map] at h
  obtain ⟨cs, hcs, hset⟩ := h
  have hall := hcs.forall₂ (fun c d => ∃ t t', (f c.2 c.1).Gives t d t')
    fun c _ t d t' hd => ⟨t, t', hd⟩
  cases eq_children_of_setChildren_eq (by simpa using hall.length_eq.symm) hset
  intro c hc
  obtain ⟨i, hi⟩ := exists_mem_zipIdx hc
  exact ⟨i, forall_mem_zipIdx_of_forall₂ hall (c, i) hi⟩

/-- A traversal gives back a node if its steps give back the children. -/
theorem exists_gives_traverse {f : Expr → StateStep σ Expr}
    (hf : ∀ c ∈ e.children, ∀ t, I t → ∃ t', (f c).Gives t c t' ∧ I t') (hs : I s) :
    ∃ s', (e.traverse fun c _ => f c).Gives s e s' ∧ I s' := by
  obtain ⟨s', hgives, hs'⟩ := StateStep.exists_gives_mapM_map id hf hs
  rw [List.map_id] at hgives
  refine ⟨s', ?_, hs'⟩
  rw [traverse_eq, StateStep.gives_map]
  exact ⟨e.children, hgives, setChildren_children e⟩

theorem exists_gives_traverseIdx {f : Nat → Expr → StateStep σ Expr}
    (hf : ∀ i, ∀ c ∈ e.children, ∀ t, I t → ∃ t', (f i c).Gives t c t' ∧ I t') (hs : I s) :
    ∃ s', (e.traverseIdx fun i c _ => f i c).Gives s e s' ∧ I s' := by
  obtain ⟨s', hgives, hs'⟩ := StateStep.exists_gives_mapM_map Prod.fst
    (fun c hc => hf c.2 c.1 (List.fst_mem_of_mem_zipIdx hc)) hs
  rw [List.zipIdx_map_fst] at hgives
  refine ⟨s', ?_, hs'⟩
  rw [traverseIdx_eq, StateStep.gives_map]
  exact ⟨e.children, hgives, setChildren_children e⟩

end Traversal

namespace Pass

/-- The rule gives back every node of the tree. -/
def Rule.Settled (rule : Rule) (e : Expr) : Prop := e.Everywhere fun n => rule.apply n = .ok n

section BottomUp

variable {rule : Rule}

theorem Rule.apply_eq_ok {r : Expr} :
    rule.apply e = .ok r ↔ (rule e = .ok none ∧ r = e) ∨ rule e = .ok (some r) := by
  unfold Rule.apply
  rw [bind_eq_ok]
  constructor
  · rintro ⟨result, hresult, h⟩
    cases result with
    | none => exact .inl ⟨hresult, (Except.ok.inj h).symm⟩
    | some r' =>
      cases h
      exact .inr hresult
  · rintro (⟨h, rfl⟩ | h)
    · exact ⟨none, h, rfl⟩
    · exact ⟨some r, h, rfl⟩

theorem bottomUp_eq_ok {r : Expr} :
    bottomUp rule e = .ok r ↔
      ∃ cs, List.Forall₂ (fun c d => bottomUp rule c = .ok d) e.children cs ∧
        rule.apply (e.setChildren cs) = .ok r := by
  rw [bottomUp_eq, bind_eq_ok]
  simp only [mapM_eq_ok]

theorem Rule.Settled.bottomUp_eq_self (h : rule.Settled e) : bottomUp rule e = .ok e := by
  induction e using childInduction with
  | step e ih =>
    refine bottomUp_eq_ok.mpr ⟨e.children, ?_, ?_⟩
    · exact List.forall₂_same.mpr fun c hc => ih c hc (h.child hc)
    · rw [setChildren_children]
      exact h.root

/-- A rule that applies to no node of a tree leaves the tree as it is. -/
theorem Rule.settled_of_everywhere_none (h : e.Everywhere fun n => rule n = .ok none) :
    rule.Settled e :=
  h.mono fun _ hn => apply_eq_ok.mpr (.inl ⟨hn, rfl⟩)

/-- If a rule applies to no node of what it makes from parts to which it does not apply, then it
applies to no node of the result of the traversal. -/
theorem Rule.everywhere_none_of_bottomUp {r : Expr}
    (hrule : ∀ n r, (∀ c ∈ n.children, c.Everywhere fun m => rule m = .ok none) →
      rule n = .ok (some r) → r.Everywhere fun m => rule m = .ok none)
    (h : bottomUp rule e = .ok r) : r.Everywhere fun m => rule m = .ok none := by
  induction e using childInduction generalizing r with
  | step e ih =>
    obtain ⟨cs, hcs, happly⟩ := bottomUp_eq_ok.mp h
    -- A node is looked at once its children are as they will stay.
    have hchildren : ∀ c ∈ (e.setChildren cs).children,
        c.Everywhere fun m => rule m = .ok none := by
      rw [children_setChildren hcs.length_eq.symm]
      exact forall_mem_of_forall₂ hcs fun c hc d hd => ih c hc hd
    rcases apply_eq_ok.mp happly with ⟨hnone, rfl⟩ | hsome
    · exact everywhere_iff.mpr ⟨hnone, hchildren⟩
    · exact hrule _ _ hchildren hsome

/-- If the rule can give back a node only with the children that it was shown, then a tree that the
traversal gives back is settled. -/
theorem Rule.settled_of_bottomUp_eq_self
    (hback : ∀ e cs, List.Forall₂ (fun c d => bottomUp rule c = .ok d) e.children cs →
      rule (e.setChildren cs) = .ok (some e) → cs = e.children)
    (h : bottomUp rule e = .ok e) : rule.Settled e := by
  induction e using childInduction with
  | step e ih =>
    obtain ⟨cs, hcs, happly⟩ := bottomUp_eq_ok.mp h
    -- If the rule left the node, it was shown the node itself; if not, the premise says so.
    have heq : cs = e.children := by
      rcases apply_eq_ok.mp happly with ⟨-, hnode⟩ | hsome
      · exact eq_children_of_setChildren_eq hcs.length_eq.symm hnode.symm
      · exact hback e cs hcs hsome
    subst heq
    rw [setChildren_children] at happly
    exact everywhere_iff.mpr ⟨happly, fun c hc => ih c hc (List.forall₂_same.mp hcs c hc)⟩

/-- A rule that changes the method of a call, or turns calls and other nodes into each other, gives
back no node at all. -/
theorem Rule.settled_iff_of_method? (hmethod : ∀ n r, rule n = .ok (some r) → r.method? ≠ n.method?) :
    rule.Settled e ↔ bottomUp rule e = .ok e := by
  refine ⟨Settled.bottomUp_eq_self, settled_of_bottomUp_eq_self fun e cs _ h => ?_⟩
  have hne := hmethod _ _ h
  rw [method?_setChildren] at hne
  exact absurd rfl hne

end BottomUp

theorem method?_callOperator {owner name : String} {args : List Expr}
    (h : callOperator owner name args = .ok e) :
    e.method? = some ⟨owner, name, operatorTypeArgs args⟩ := by
  obtain ⟨op, type, -, -, rfl⟩ := callOperator_eq_ok h
  rfl

variable {n r : Expr}

theorem Promotion.method?_rule (h : rule n = .ok (some r)) : r.method? ≠ n.method? := by
  obtain ⟨m, source, rest, type, source', rfl, hinMemory, -, -, hcall⟩ := rule_eq_some h
  rw [method?_callOperator hcall]
  intro heq
  -- The rule fires on in-memory operators only, and what it makes is deferred.
  have hdeferred : Family.deferred.owner = m.owner := congrArg Method.owner (Option.some.inj heq)
  rw [hinMemory] at hdeferred
  exact absurd hdeferred (by decide)

theorem Membership.comparison?_contains : comparison? "Contains" = none := by decide

theorem Membership.method?_rule (h : rule n = .ok (some r)) : r.method? ≠ n.method? := by
  obtain ⟨m, receiver, source, predicate, type, op, value, contains, rfl, hquantified, hcontains,
    hr⟩ := rule_eq_some h
  -- What has become a test of membership is no quantifier any more.
  have hname : m.name ≠ "Contains" := by
    intro hname
    rw [hname, quantified?, comparison?_contains] at hquantified
    cases hquantified
  rcases hr with rfl | rfl
  · rw [method?_callOperator hcontains]
    intro heq
    exact hname (congrArg Method.name (Option.some.inj heq)).symm
  · nofun

theorem GroupJoin.name_flatJoin? {family : Family} {source collection : Expr}
    {rest args : List Expr} {name : String}
    (h : flatJoin? family source collection rest = some (name, args)) : name ≠ "SelectMany" := by
  obtain ⟨parts, leftOuter, selector, -, -, -, -, rfl, -⟩ := flatJoin?_eq_some h
  cases leftOuter <;> decide

theorem GroupJoin.method?_rule (h : rule n = .ok (some r)) : r.method? ≠ n.method? := by
  obtain ⟨m, receiver, source, collection, rest, type, family, name, args, rfl, hname, hflat,
    hcall⟩ := rule_eq_some h
  rw [method?_callOperator hcall]
  intro heq
  have hsame : name = m.name := congrArg Method.name (Option.some.inj heq)
  exact name_flatJoin? hflat (hsame.trans hname)

theorem MemberPushdown.method?_rule (h : rule n = .ok (some r)) : r.method? ≠ n.method? := by
  obtain ⟨m, receiver, args, callType, name, type, source, projection, projected, rfl, -, -, -, -,
    hcall⟩ := rule_eq_some h
  rw [method?_callOperator hcall]
  nofun

namespace KeyComparison

variable {model : Model}

theorem bottomUp_member {target : Expr} {name : String} {type : DataType}
    (h : bottomUp (rule model) (.member target name type) = .ok r) :
    ∃ target', bottomUp (rule model) target = .ok target' ∧ r = .member target' name type := by
  obtain ⟨cs, hcs, happly⟩ := bottomUp_eq_ok.mp h
  obtain ⟨target', ds, htarget, hds, rfl⟩ := List.forall₂_cons_left_iff.mp hcs
  cases List.forall₂_nil_left_iff.mp hds
  rcases Rule.apply_eq_ok.mp happly with ⟨-, hr⟩ | hsome
  · exact ⟨target', htarget, hr⟩
  · cases hsome

/-- No member of a tree becomes that tree: the tree would be such a member itself. -/
theorem bottomUp_member_ne {name : String} {type : DataType} :
    bottomUp (rule model) (.member e name type) ≠ .ok e := by
  induction e using childInduction with
  | step e ih =>
    intro h
    obtain ⟨target, htarget, rfl⟩ := bottomUp_member h
    exact ih target (by simp [children]) htarget

/-- Access to a key gives back what it was made from only by reading a foreign key that it reads
already. -/
theorem eq_of_keyAccess_eq {key : Property} (h : bottomUp (rule model) e = .ok r)
    (hkey : keyAccess model r key = e) : r = e := by
  unfold keyAccess at hkey
  split at hkey
  · rename_i target name type
    split at hkey
    · -- The foreign key is read from the same row, so only the name could differ.
      subst hkey
      obtain ⟨target', -, hmember⟩ := bottomUp_member h
      cases hmember
      rfl
    · subst hkey
      exact absurd h bottomUp_member_ne
  · subst hkey
    exact absurd h bottomUp_member_ne

theorem foldBinary?_eq_some_binary {combine op : BinaryOp} {es : List Expr} {left right : Expr}
    (hop : combine ≠ op) (h : Expr.foldBinary? combine es = some (.binary op left right)) :
    es = [.binary op left right] := by
  cases es with
  | nil => cases h
  | cons x es =>
    have hfold := Option.some.inj h
    -- The fold ends with the last element, so with two or more its root combines.
    rcases List.eq_nil_or_concat es with rfl | ⟨init, last, rfl⟩
    · exact congrArg (· :: []) hfold
    · rw [List.concat_eq_append, List.foldl_append] at hfold
      cases hfold
      exact absurd rfl hop

theorem combine_ne_compare (equal : Bool) : (Mode.of equal).combine ≠ (Mode.of equal).compare := by
  cases equal <;> decide

/-- A comparison that becomes a single comparison is one by a single key. -/
theorem compare_eq_binary {equal : Bool} {left right left' right' node : Expr}
    (h : compare model equal left' right' node =
      .ok (some (.binary (Mode.of equal).compare left right))) :
    ∃ key, keyAccess model left' key = left ∧ keyAccess model right' key = right := by
  rcases compare_eq_some h with hliteral | ⟨entity, -, hfold⟩
  · cases hliteral
  · obtain ⟨key, -, hkey⟩ := List.map_eq_singleton_iff.mp
      (foldBinary?_eq_some_binary (combine_ne_compare equal) hfold)
    unfold keyTest at hkey
    split at hkey
    · cases hkey
    split at hkey
    · cases hkey
    · cases hkey
      exact ⟨key, rfl, rfl⟩

theorem children_eq_of_rule_eq_self {cs : List Expr}
    (hcs : List.Forall₂ (fun c d => bottomUp (rule model) c = .ok d) e.children cs)
    (h : rule model (e.setChildren cs) = .ok (some e)) : cs = e.children := by
  obtain ⟨equal, left', right', hnode, hcompare⟩ := rule_eq_some h
  -- Only comparisons are looked at, and they have two children.
  have hkind : e.kindName = "Binary" := by
    rw [← kindName_setChildren e cs, hnode]
    rfl
  cases e with
  | binary op left right =>
    obtain ⟨l, rest, hleft, hrest, rfl⟩ := List.forall₂_cons_left_iff.mp hcs
    obtain ⟨r, rest', hright, hnil, rfl⟩ := List.forall₂_cons_left_iff.mp hrest
    cases List.forall₂_nil_left_iff.mp hnil
    cases hnode
    obtain ⟨key, hl, hr⟩ := compare_eq_binary hcompare
    rw [eq_of_keyAccess_eq hleft hl, eq_of_keyAccess_eq hright hr]
    rfl
  | _ => simp [kindName] at hkind

theorem settled_iff : (rule model).Settled e ↔ bottomUp (rule model) e = .ok e :=
  ⟨Rule.Settled.bottomUp_eq_self,
    Rule.settled_of_bottomUp_eq_self fun _ _ => children_eq_of_rule_eq_self⟩

end KeyComparison

end Pass

end QueryLowering
