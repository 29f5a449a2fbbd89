import QueryLowering.Proofs.Everywhere
import QueryLowering.Proofs.Unfolding

/-!
What guards test, and where the rows that they test come from. A place in a tree tells which parameters
are bound there and by which arguments of which calls. The removal of null guards keeps less, namely
which rows may be missing, and it keeps this exactly: the rows of the second parameter of the result
selector of a left join, or of a flattening of collections that end in a default row.
-/

namespace QueryLowering.Pass.NullGuard

open QueryLowering.Expr

variable {model : Model} {e n : Expr}

/-- The test compares an expression with null, on either side, and has the given outcome for null. -/
inductive NullTest : Expr → Expr → Bool → Prop
  | isNull {checked : Expr} : NullTest (.unary .isNull checked) checked true
  | isNotNull {checked : Expr} : NullTest (.unary .isNotNull checked) checked false
  | left {op : BinaryOp} {checked null : Expr} : op.isEquality = true →
      null.isNullConstant = true → NullTest (.binary op checked null) checked (op == .eq)
  | right {op : BinaryOp} {checked null : Expr} : op.isEquality = true →
      null.isNullConstant = true → NullTest (.binary op null checked) checked (op == .eq)

theorem nullTest_of_nullTest? {test checked : Expr} {isNull : Bool}
    (h : nullTest? test = some (checked, isNull)) : NullTest test checked isNull := by
  unfold nullTest? at h
  split at h
  · split at h
    · cases h
      exact .left rfl ‹_›
    · split at h
      · cases h
        exact .right rfl ‹_›
      · cases h
  · split at h
    · cases h
      exact .left rfl ‹_›
    · split at h
      · cases h
        exact .right rfl ‹_›
      · cases h
  · cases h
    exact .isNull
  · cases h
    exact .isNotNull
  · cases h

/-- A conditional guards what its test compares with null if it gives null for null. -/
theorem guarded?_eq_some_iff {test whenTrue whenFalse checked value : Expr} :
    guarded? test whenTrue whenFalse = some (checked, value) ↔
      ∃ isNull, nullTest? test = some (checked, isNull) ∧
        (if isNull then whenTrue else whenFalse).isNullConstant = true ∧
        value = if isNull then whenFalse else whenTrue := by
  unfold guarded?
  constructor
  · intro h
    split at h
    · split at h
      · cases h
        exact ⟨true, ‹_›, ‹_›, rfl⟩
      · cases h
    · split at h
      · cases h
        exact ⟨false, ‹_›, ‹_›, rfl⟩
      · cases h
    · cases h
  · rintro ⟨isNull, htest, hnull, rfl⟩
    rw [htest]
    cases isNull <;> exact if_pos hnull

/-- A collection selector that ends in a default row, apart from conversions. -/
inductive EndsInDefault : Expr → Prop
  | default {m : Method} {receiver : Option Expr} {args : List Expr} {type : DataType} :
      m.name = "DefaultIfEmpty" → EndsInDefault (.call m receiver args type)
  | converted {m : Method} {receiver : Option Expr} {source : Expr} {type : DataType} :
      m.name = "AsQueryable" → EndsInDefault source → EndsInDefault (.call m receiver [source] type)
  | lambda {params : List Param} {body : Expr} :
      EndsInDefault body → EndsInDefault (.lambda params body)
  | quote {inner : Expr} : EndsInDefault inner → EndsInDefault (.quote inner)

theorem endsInDefault_iff : endsInDefault e = true ↔ EndsInDefault e := by
  constructor
  · intro h
    induction e using childInduction with
    | step e ih =>
      cases e with
      | quote inner =>
        rw [endsInDefault] at h
        exact .quote (ih inner (by simp [children]) h)
      | lambda params body =>
        rw [endsInDefault] at h
        exact .lambda (ih body (by simp [children]) h)
      | call m receiver args type =>
        rcases args with _ | ⟨source, _ | ⟨second, rest⟩⟩
        · exact .default (by simpa [endsInDefault] using h)
        · rw [endsInDefault] at h
          split at h
          · rename_i hname
            exact .converted hname (ih source (by simp [children]) h)
          · exact .default (beq_iff_eq.mp h)
        · exact .default (by simpa [endsInDefault] using h)
      | _ => simp [endsInDefault] at h
  · intro h
    induction h with
    | @default m receiver args type hname =>
      -- A call with one argument is taken for a conversion first.
      have hother : m.name ≠ "AsQueryable" := by
        rw [hname]
        decide
      rcases args with _ | ⟨source, _ | ⟨second, rest⟩⟩
      · simpa [endsInDefault] using hname
      · rw [endsInDefault, if_neg hother]
        exact beq_iff_eq.mpr hname
      · simpa [endsInDefault] using hname
    | converted hname _ ih =>
      rw [endsInDefault, if_pos hname]
      exact ih
    | lambda _ ih =>
      rw [endsInDefault]
      exact ih
    | quote _ ih =>
      rw [endsInDefault]
      exact ih

/-- An argument of a call. -/
structure Argument where
  method : Method
  args : List Expr
  position : Nat

/-- The result selector of a left join, or of a flattening of collections that end in a default row.
The rows of its second parameter may be missing. -/
inductive Argument.IsOuterSelector : Argument → Prop
  | leftJoin {f : Family} {m : Method} {args : List Expr} :
      m.owner = f.owner → m.name = "LeftJoin" → args.length = 5 → IsOuterSelector ⟨m, args, 4⟩
  | selectMany {f : Family} {m : Method} {source collection selector : Expr} :
      m.owner = f.owner → m.name = "SelectMany" → EndsInDefault collection →
        IsOuterSelector ⟨m, [source, collection, selector], 2⟩

theorem optionalRowArg?_eq_some_iff {m : Method} {args : List Expr} {i : Nat} :
    optionalRowArg? m args = some i ↔ Argument.IsOuterSelector ⟨m, args, i⟩ := by
  unfold optionalRowArg?
  constructor
  · intro h
    split at h
    · rename_i howner
      obtain ⟨f, howner⟩ := Family.isSome_ofOwner?_iff.mp howner
      split at h
      · rename_i hjoin
        cases h
        exact .leftJoin howner hjoin.1 hjoin.2
      · split at h
        · rename_i hname
          split at h
          · split at h
            · rename_i hdefault
              cases h
              exact .selectMany howner hname (endsInDefault_iff.mp hdefault)
            · cases h
          · cases h
        · cases h
    · cases h
  · intro h
    cases h with
    | leftJoin howner hname hlength =>
      rw [if_pos (Family.isSome_ofOwner?_iff.mpr ⟨_, howner⟩), if_pos ⟨hname, hlength⟩]
    | selectMany howner hname hdefault =>
      rw [if_pos (Family.isSome_ofOwner?_iff.mpr ⟨_, howner⟩), if_neg (by simp), if_pos hname]
      exact if_pos (endsInDefault_iff.mpr hdefault)

instance (a : Argument) : Decidable a.IsOuterSelector :=
  decidable_of_iff (optionalRowArg? a.method a.args = some a.position) optionalRowArg?_eq_some_iff

/-- A parameter of a lambda, its position in the lambda, and the argument of a call that the lambda
is, if it is one. -/
structure Binding where
  param : Param
  position : Nat
  argument : Option Argument

/-- The row of the parameter may be missing. -/
def Binding.MayMiss (b : Binding) : Prop := b.position = 1 ∧ ∃ a ∈ b.argument, a.IsOuterSelector

instance (b : Binding) : Decidable b.MayMiss := inferInstanceAs (Decidable (_ ∧ _))

/-- What is bound at a place, innermost first, and the argument of a call that stands there, quoted or
not. -/
structure Place where
  bindings : List Binding
  argument : Option Argument

namespace Place

/-- The place of a whole tree. -/
def root : Place := ⟨[], none⟩

/-- A place below where the same parameters are bound, and that is no argument. -/
def below (P : Place) : Place := ⟨P.bindings, none⟩

/-- The place of a child by its position. Of two parameters of one name the later hides the earlier. -/
def child (P : Place) : Expr → Nat → Place
  | .quote _, _ => P
  | .lambda params _, _ =>
    ⟨(params.zipIdx.map fun p => ⟨p.1, p.2, P.argument⟩).reverse ++ P.bindings, none⟩
  | .call m receiver args _, i =>
    ⟨P.bindings,
      if i < receiver.toList.length then none else some ⟨m, args, i - receiver.toList.length⟩⟩
  | _, _ => P.below

/-- The innermost binding of a name. -/
def binding? (P : Place) (name : String) : Option Binding :=
  P.bindings.find? fun b => b.param.name == name

/-- What removal keeps of the bindings. -/
def scope (P : Place) : Scope := P.bindings.map fun b => (b.param, decide b.MayMiss)

/-- What removal keeps of the argument. -/
def optional (P : Place) : Option Nat :=
  if ∃ a ∈ P.argument, a.IsOuterSelector then some 1 else none

variable {P : Place}

/-- The row of a parameter counts as one that may be missing exactly if its innermost binding says
so. -/
theorem isOptional_scope_iff {p : Param} :
    P.scope.isOptional p = true ↔ ∃ b ∈ P.binding? p.name, b.MayMiss := by
  unfold Scope.isOptional scope binding?
  rw [List.find?_map, Option.any_map, Option.any_eq_true]
  simp only [Function.comp_def, decide_eq_true_eq]
  rfl

theorem optional_eq_some_iff {i : Nat} :
    P.optional = some i ↔ i = 1 ∧ ∃ a ∈ P.argument, a.IsOuterSelector := by
  unfold optional
  split
  · rename_i hselector
    rw [Option.some.injEq, eq_comm]
    exact (and_iff_left hselector).symm
  · rename_i hselector
    exact iff_of_false nofun fun h => hselector h.2

theorem scope_bind (P : Place) (params : List Param) (body : Expr) (i : Nat) :
    P.scope.bind params P.optional = (P.child (.lambda params body) i).scope := by
  unfold Scope.bind scope child
  rw [List.map_append, List.map_reverse, List.map_map]
  -- Both reverse the parameters, and both mark the one at the position that is kept of the argument.
  refine congrArg (fun bs => bs.reverse ++ _) (List.map_congr_left fun q hq => ?_)
  exact Prod.ext rfl (decide_eq_decide.mpr optional_eq_some_iff)

theorem optionalRowChild?_iff {m : Method} {receiver : Option Expr} {args : List Expr}
    {type : DataType} {i : Nat} :
    optionalRowChild? (.call m receiver args type) = some i ↔
      ∃ a ∈ (P.child (.call m receiver args type) i).argument, a.IsOuterSelector := by
  rw [optionalRowChild?, Option.map_eq_some_iff]
  simp only [child, optionalRowArg?_eq_some_iff]
  constructor
  · rintro ⟨j, hselector, rfl⟩
    rw [if_neg (by omega), Nat.add_sub_cancel_left]
    exact ⟨_, rfl, hselector⟩
  · rintro ⟨a, ha, hselector⟩
    split at ha
    · cases ha
    · cases ha
      exact ⟨_, hselector, by omega⟩

/-- Removal goes to the children of a node with what it keeps of their places. -/
theorem inner_child (P : Place) (n : Expr) (i : Nat) :
    inner (P.scope, P.optional) n i = ((P.child n i).scope, (P.child n i).optional) := by
  cases n with
  | lambda params body => exact Prod.ext (P.scope_bind params body i) rfl
  | call m receiver args type =>
    -- The receiver comes before the arguments, so a child is an argument at a lower position.
    refine Prod.ext rfl ?_
    change (if _ then _ else _) = optional _
    unfold optional
    simp only [optionalRowChild?_iff (P := P)]
  | _ => rfl

end Place

/-- What removal makes of an expression that stands at a place. -/
def rewritten (model : Model) (P : Place) (n : Expr) : Expr := remove model P.scope P.optional n

/-- Removal makes of a whole tree what it makes of it at the root. -/
theorem run_eq_rewritten (model : Model) (e : Expr) : run model e = rewritten model .root e := rfl

/-- The children of a node are rewritten at their places, and then the guard that the node may be is
judged. -/
theorem rewritten_eq (model : Model) (P : Place) (n : Expr) :
    rewritten model P n = unguardNode model P.scope
      (n.setChildren (n.children.zipIdx.map fun c => rewritten model (P.child n c.2) c.1)) := by
  unfold rewritten
  rw [remove_eq]
  simp only [Place.inner_child]

/-- A node that is no conditional stays over its rewritten children. -/
theorem rewritten_of_kindName {P : Place} (h : n.kindName ≠ "Conditional") :
    rewritten model P n =
      n.setChildren (n.children.zipIdx.map fun c => rewritten model (P.child n c.2) c.1) := by
  rw [rewritten_eq, unguardNode_of_kindName (by rwa [kindName_setChildren])]

theorem rewritten_of_leaf {P : Place} (h : n.children = []) : rewritten model P n = n := by
  have hkind : n.kindName ≠ "Conditional" := by
    cases n with
    | cond => cases h
    | _ => simp [kindName]
  have hself : n.setChildren [] = n := by
    conv => rhs; rw [← setChildren_children n, h]
  rw [rewritten_of_kindName hkind, h, List.zipIdx_nil, List.map_nil, hself]

/-- The node stands at the place in the tree. -/
inductive At (e : Expr) : Place → Expr → Prop
  | root : At e .root e
  | child {P : Place} {n c : Expr} {i : Nat} :
      At e P n → n.children[i]? = some c → At e (P.child n i) c

/-- Removal goes to the node, in the scope and with the position that it has noted there. -/
inductive Visits (e : Expr) : Scope × Option Nat → Expr → Prop
  | root : Visits e ([], none) e
  | child {noted : Scope × Option Nat} {n c : Expr} {i : Nat} :
      Visits e noted n → n.children[i]? = some c → Visits e (inner noted n i) c

/-- What removal has noted at a place is what it keeps of the place. -/
theorem At.visits {P : Place} (h : At e P n) : Visits e (P.scope, P.optional) n := by
  induction h with
  | root => exact .root
  | child _ hc ih =>
    rw [← Place.inner_child]
    exact .child ih hc

/-- The node stands at the place in the tree, and every guard around it is left, or is replaced by
the branch that the node stands in. -/
inductive Kept (model : Model) (e : Expr) : Place → Expr → Prop
  | root : Kept model e .root e
  | child {P : Place} {n c : Expr} {i : Nat} :
      Kept model e P n → n.children[i]? = some c →
        (rewritten model P n = n.setChildren
            (n.children.zipIdx.map fun c => rewritten model (P.child n c.2) c.1) ∨
          rewritten model P n = rewritten model (P.child n i) c) →
        Kept model e (P.child n i) c

/-- A node that is no conditional stays around its children. -/
theorem Kept.child_of_kindName {P : Place} {c : Expr} {i : Nat} (h : Kept model e P n)
    (hkind : n.kindName ≠ "Conditional") (hc : n.children[i]? = some c) :
    Kept model e (P.child n i) c :=
  .child h hc (.inl (rewritten_of_kindName hkind))

/-- What removal makes of a place that is kept is found in what it makes of the tree. -/
theorem Kept.mem_nodes {P : Place} (h : Kept model e P n) :
    rewritten model P n ∈ (run model e).nodes := by
  induction h with
  | root =>
    rw [run_eq_rewritten]
    exact self_mem_nodes _
  | @child P n c i _ hc hleft ih =>
    refine mem_nodes_trans ?_ ih
    rcases hleft with hleft | hleft
    · rw [hleft]
      refine mem_nodes_of_mem_children ?_ (self_mem_nodes _)
      rw [children_setChildren (by simp)]
      exact List.mem_map.mpr ⟨(c, i), List.mem_zipIdx_iff_getElem?.mpr hc, rfl⟩
    · rw [hleft]
      exact self_mem_nodes _

end QueryLowering.Pass.NullGuard
