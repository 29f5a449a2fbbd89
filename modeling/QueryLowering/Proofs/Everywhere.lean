import QueryLowering.Expr.Subst
import QueryLowering.Operator
import QueryLowering.Pass.BottomUp
import QueryLowering.Proofs.Steps

/-!
Properties of all nodes of a tree. A property of single nodes is persistent if it does not depend on
the children of a node and holds of all nodes that passes put in; then it spreads from a tree to
what substitutions, operator calls and local rules make of the tree. Most passes put in nodes of the
host language only, so for them less is asked of the property.
-/

namespace QueryLowering.Expr

/-- Every node of the tree has the property. -/
def Everywhere (Q : Expr → Prop) (e : Expr) : Prop := ∀ n ∈ e.nodes, Q n

variable {Q P : Expr → Prop} {e : Expr}

theorem mem_nodes_of_mem_children {n c e : Expr} (hc : c ∈ e.children) (hn : n ∈ c.nodes) :
    n ∈ e.nodes := by
  rw [nodes_eq]
  exact List.mem_cons_of_mem _ (List.mem_flatMap.mpr ⟨c, hc, hn⟩)

theorem self_mem_nodes (e : Expr) : e ∈ e.nodes := by
  rw [nodes_eq]
  exact List.mem_cons_self

theorem mem_nodes_trans {n m e : Expr} (hn : n ∈ m.nodes) (hm : m ∈ e.nodes) : n ∈ e.nodes := by
  induction e using childInduction with
  | step e ih =>
    rw [nodes_eq] at hm
    rcases List.mem_cons.mp hm with rfl | hm
    · exact hn
    · obtain ⟨c, hc, hm⟩ := List.mem_flatMap.mp hm
      exact mem_nodes_of_mem_children hc (ih c hc hm)

theorem everywhere_iff : e.Everywhere Q ↔ Q e ∧ ∀ c ∈ e.children, c.Everywhere Q := by
  unfold Everywhere
  rw [nodes_eq]
  simp only [List.mem_cons, List.mem_flatMap, forall_eq_or_imp]
  constructor
  · rintro ⟨hroot, hrest⟩
    exact ⟨hroot, fun c hc n hn => hrest n ⟨c, hc, hn⟩⟩
  · rintro ⟨hroot, hrest⟩
    refine ⟨hroot, ?_⟩
    rintro n ⟨c, hc, hn⟩
    exact hrest c hc n hn

theorem everywhere_of_leaf (hleaf : e.children = []) (h : Q e) : e.Everywhere Q := by
  refine everywhere_iff.mpr ⟨h, ?_⟩
  rw [hleaf]
  exact List.forall_mem_nil _

theorem Everywhere.root (h : e.Everywhere Q) : Q e := (everywhere_iff.mp h).1

theorem Everywhere.child (h : e.Everywhere Q) {c : Expr} (hc : c ∈ e.children) :
    c.Everywhere Q := (everywhere_iff.mp h).2 c hc

theorem Everywhere.mono (h : e.Everywhere Q) (hQP : ∀ n, Q n → P n) : e.Everywhere P :=
  fun n hn => hQP n (h n hn)

theorem isNullConstant_setChildren (e : Expr) (cs : List Expr) :
    (e.setChildren cs).isNullConstant = e.isNullConstant := by
  unfold setChildren
  split <;> rfl

theorem isRowSourceChild_setChildren (e : Expr) (cs : List Expr) :
    (e.setChildren cs).isRowSourceChild = e.isRowSourceChild := by
  unfold setChildren
  split <;> rfl

/-- The method that a node calls. -/
def method? : Expr → Option Method
  | call m .. => some m
  | _ => none

theorem method?_setChildren (e : Expr) (cs : List Expr) :
    (e.setChildren cs).method? = e.method? := by
  unfold setChildren
  split <;> rfl

/-- The marker that a node calls. -/
def marker? (e : Expr) : Option Marker := e.method?.bind Marker.of?

theorem marker?_setChildren (e : Expr) (cs : List Expr) :
    (e.setChildren cs).marker? = e.marker? := by
  rw [marker?, method?_setChildren, marker?]

/-- Anything but an invocation, a marker or a delegate. Passes put in no other nodes. -/
def isOrdinary : Expr → Bool
  | invoke .. => false
  | call m .. => (Marker.of? m).isNone
  | const (.delegate ..) _ => false
  | _ => true

/-- A property of nodes that does not depend on their children and that all ordinary nodes have. -/
structure Persistent (Q : Expr → Prop) : Prop where
  setChildren : ∀ e cs, Q e → Q (e.setChildren cs)
  ordinary : ∀ e, e.isOrdinary = true → Q e

/-- A property of nodes that does not depend on their children and that all ordinary nodes of the host
language have; relational nodes need not have it. -/
structure HostPersistent (Q : Expr → Prop) : Prop where
  setChildren : ∀ e cs, Q e → Q (e.setChildren cs)
  ordinary : ∀ e, e.isOrdinary = true → e.isRelational = false → Q e

theorem Persistent.host (hQ : Persistent Q) : HostPersistent Q :=
  ⟨hQ.setChildren, fun e he _ => hQ.ordinary e he⟩

theorem Persistent.everywhere (hQ : Persistent Q) (he : e.isOrdinary = true)
    (hcs : ∀ c ∈ e.children, c.Everywhere Q) : e.Everywhere Q :=
  everywhere_iff.mpr ⟨hQ.ordinary e he, hcs⟩

theorem everywhere_setChildren (hset : ∀ e cs, Q e → Q (e.setChildren cs)) (he : Q e)
    {cs : List Expr} (hlen : cs.length = e.children.length) (hcs : ∀ c ∈ cs, c.Everywhere Q) :
    (e.setChildren cs).Everywhere Q := by
  rw [everywhere_iff, children_setChildren hlen]
  exact ⟨hset e cs he, hcs⟩

theorem withChildren_eq_ok {cs : List Expr} {r : Expr} :
    e.withChildren cs = .ok r ↔ cs.length = e.children.length ∧ r = e.setChildren cs := by
  unfold withChildren
  split
  · rename_i hlen
    exact ⟨fun h => ⟨hlen, (Except.ok.inj h).symm⟩, fun h => congrArg Except.ok h.2.symm⟩
  · rename_i hlen
    refine ⟨?_, fun h => absurd h.1 hlen⟩
    intro h
    cases h

/-- What holds of the members of a fold and is kept by joining holds of the fold. -/
theorem of_foldBinary? {op : BinaryOp} (hop : ∀ l r, P l → P r → P (binary op l r)) {es : List Expr}
    (hes : ∀ x ∈ es, P x) (h : foldBinary? op es = some e) : P e := by
  cases es with
  | nil => cases h
  | cons x es =>
    cases h
    -- The fold goes on from what it has put together, which takes the place of the first element.
    have hx := hes x List.mem_cons_self
    have hrest : ∀ y ∈ es, P y := fun y hy => hes y (List.mem_cons_of_mem _ hy)
    clear hes
    induction es generalizing x with
    | nil => exact hx
    | cons y es ih =>
      exact ih _ (hop x y hx (hrest y List.mem_cons_self)) fun z hz =>
        hrest z (List.mem_cons_of_mem _ hz)

/-- The body of a lambda that an expression shows, quoted or not, is a part of it. -/
theorem Everywhere.lambda? (h : e.Everywhere Q) {params : List Param} {body : Expr}
    (hl : e.lambda? = some (params, body)) : body.Everywhere Q := by
  unfold Expr.lambda? at hl
  split at hl
  · cases hl
    exact h.child (by simp [children])
  · cases hl
    have hlambda : (lambda params body).Everywhere Q := h.child (by simp [children])
    exact hlambda.child (by simp [children])
  · cases hl

namespace HostPersistent

variable (hQ : HostPersistent Q)
include hQ

theorem everywhere (he : e.isOrdinary = true) (hhost : e.isRelational = false)
    (hcs : ∀ c ∈ e.children, c.Everywhere Q) : e.Everywhere Q :=
  everywhere_iff.mpr ⟨hQ.ordinary e he hhost, hcs⟩

theorem param (p : Param) : (Expr.param p).Everywhere Q :=
  hQ.everywhere rfl rfl (by simp [children])

theorem member (he : e.Everywhere Q) (name : String) (type : DataType) :
    (Expr.member e name type).Everywhere Q :=
  hQ.everywhere rfl rfl (by simpa [children] using he)

theorem lambda (he : e.Everywhere Q) (params : List Param) :
    (Expr.lambda params e).Everywhere Q :=
  hQ.everywhere rfl rfl (by simpa [children] using he)

theorem quote (he : e.Everywhere Q) : (Expr.quote e).Everywhere Q :=
  hQ.everywhere rfl rfl (by simpa [children] using he)

theorem unary (he : e.Everywhere Q) (op : UnaryOp) : (Expr.unary op e).Everywhere Q :=
  hQ.everywhere rfl rfl (by simpa [children] using he)

theorem binary {l r : Expr} (hl : l.Everywhere Q) (hr : r.Everywhere Q) (op : BinaryOp) :
    (Expr.binary op l r).Everywhere Q :=
  hQ.everywhere rfl rfl (by simpa [children] using ⟨hl, hr⟩)

theorem foldBinary? {op : BinaryOp} {es : List Expr} (hes : ∀ x ∈ es, x.Everywhere Q)
    (h : Expr.foldBinary? op es = some e) : e.Everywhere Q :=
  of_foldBinary? (fun _ _ hl hr => hQ.binary hl hr op) hes h

/-- A member access is replaced by something with the property, or keeps its node. -/
theorem substMember {p : Param} {name : String} {new : Expr} (hnew : new.Everywhere Q)
    (he : e.Everywhere Q) : (Expr.substMember p name new e).Everywhere Q := by
  induction e using lambdaInduction with
  | hlambda params body ih =>
    have hbody := ih (he.child (by simp [children]))
    rw [Expr.substMember]
    split
    · exact hnew
    split
    · exact he
    · exact hQ.lambda hbody params
  | hnode e hl ih =>
    rw [Expr.substMember]
    · split
      · exact hnew
      rw [mapChildren_eq]
      refine everywhere_setChildren hQ.setChildren he.root (by simp) fun c hc => ?_
      obtain ⟨d, hd, rfl⟩ := List.mem_map.mp hc
      exact ih d hd (he.child hd)
    · exact hl

end HostPersistent

/-- What is put for a parameter is one of the bindings; every other node stays. -/
theorem Everywhere.subst (hset : ∀ e cs, Q e → Q (e.setChildren cs)) {σ : Bindings}
    (hσ : ∀ b ∈ σ, b.2.Everywhere Q) (he : e.Everywhere Q) : (Expr.subst σ e).Everywhere Q := by
  -- Parameters and lambdas are the only nodes at which the bindings matter.
  induction e using scopeInduction generalizing σ with
  | hparam p =>
    rw [subst_param]
    cases hlookup : σ.lookup p with
    | none => exact he
    | some x =>
      exact hσ (p, x) (mem_of_lookup hlookup)
  | hlambda params body ih =>
    rw [subst_lambda]
    have hbody := ih (σ := σ.visible params) (fun b hb => hσ b (List.mem_filter.mp hb).1)
      (he.child (by simp [children]))
    change ((lambda params body).setChildren [body.subst (σ.visible params)]).Everywhere Q
    exact everywhere_setChildren hset he.root rfl (by simpa using hbody)
  | hnode e hp hl ih =>
    rw [subst_eq_setChildren σ e hp hl]
    refine everywhere_setChildren hset he.root (by simp) fun c hc => ?_
    obtain ⟨d, hd, rfl⟩ := List.mem_map.mp hc
    exact ih d hd hσ (he.child hd)

end QueryLowering.Expr

namespace QueryLowering

open QueryLowering.Expr

variable {Q : Expr → Prop} {e : Expr}

theorem Family.owner_injective {a b : Family} (h : a.owner = b.owner) : a = b := by
  revert h
  cases a <;> cases b <;> decide

theorem Family.isSome_ofOwner?_iff {owner : String} :
    (ofOwner? owner).isSome = true ↔ ∃ f : Family, owner = f.owner := by
  unfold ofOwner?
  constructor
  · intro h
    split at h
    · rename_i howner
      exact ⟨_, howner⟩
    · split at h
      · rename_i howner
        exact ⟨_, howner⟩
      · cases h
  · rintro ⟨f, rfl⟩
    cases f <;> rfl

theorem Operator.find?_eq_some {owner name : String} {shapes : List ArgShape} {op : Operator}
    (h : find? owner name shapes = some op) :
    op ∈ all ∧ op.family.owner = owner ∧ op.name = name ∧
      acceptsShapes op.params shapes = true := by
  have hmem := List.mem_of_find?_eq_some h
  have htest := List.find?_some h
  simp only [named, Bool.and_eq_true, beq_iff_eq] at htest
  exact ⟨hmem, htest.1.1, htest.1.2, htest.2⟩

theorem callOperator_eq_ok {owner name : String} {args : List Expr}
    (h : callOperator owner name args = .ok e) :
    ∃ op type, Operator.find? owner name (args.map ArgShape.of) = some op ∧
      op.resultType args = .ok type ∧
      e = .call ⟨owner, name, operatorTypeArgs args⟩ none args type := by
  unfold callOperator at h
  simp only at h
  split at h
  · rename_i op hop
    obtain ⟨type, htype, h⟩ := bind_eq_ok.mp h
    exact ⟨op, type, hop, htype, (Except.ok.inj h).symm⟩
  · cases h

/-- Type arguments do not make a marker. -/
theorem marker_of?_mk (owner name : String) (ts us : List DataType) :
    Marker.of? ⟨owner, name, ts⟩ = Marker.of? ⟨owner, name, us⟩ := rfl

theorem Expr.HostPersistent.callOperator (hQ : HostPersistent Q) {owner name : String} {args : List Expr}
    (hm : Marker.of? ⟨owner, name, []⟩ = none) (hargs : ∀ a ∈ args, a.Everywhere Q)
    (h : callOperator owner name args = .ok e) : e.Everywhere Q := by
  obtain ⟨op, type, -, -, rfl⟩ := callOperator_eq_ok h
  refine hQ.everywhere ?_ rfl (by simpa [children] using hargs)
  simp only [isOrdinary, marker_of?_mk owner name _ [], hm, Option.isNone_none]

section Traversal

variable {σ : Type} {I : σ → Prop} {s s' : σ} {r : Expr}

/-- A traversal of children keeps what every step keeps, in the results and in the state. -/
theorem everywhere_traverse {f : Expr → StateStep σ Expr}
    (hset : ∀ e cs, Q e → Q (e.setChildren cs)) (he : Q e)
    (hf : ∀ c ∈ e.children, ∀ t r t', I t → (f c).Gives t r t' → r.Everywhere Q ∧ I t')
    (hs : I s) (h : (e.traverse fun c _ => f c).Gives s r s') : r.Everywhere Q ∧ I s' := by
  rw [traverse_eq, StateStep.gives_map] at h
  obtain ⟨cs, hcs, rfl⟩ := h
  have hall := StateStep.Gives.mapM (R := fun _ c => c.Everywhere Q) hf hs hcs
  exact ⟨everywhere_setChildren hset he hall.1.length_eq.symm
    (forall_mem_of_forall₂ hall.1 fun _ _ _ h => h), hall.2⟩

/-- A traversal that does not look at the positions of children. -/
theorem Expr.traverse_eq_traverseIdx {m : Type → Type} [Monad m] [LawfulMonad m] (e : Expr)
    (f : Expr → m Expr) : e.traverse (fun c _ => f c) = e.traverseIdx fun _ c _ => f c := by
  rw [traverse_eq, traverseIdx_eq]
  conv => lhs; rw [← List.zipIdx_map_fst 0 e.children, List.mapM_map]
  rfl

end Traversal

namespace Pass

/-- A traversal from the leaves to the root keeps what its rule keeps. -/
theorem everywhere_bottomUp {rule : Rule} (hset : ∀ e cs, Q e → Q (e.setChildren cs))
    (hrule : ∀ e r, e.Everywhere Q → rule e = .ok (some r) → r.Everywhere Q) {e' : Expr}
    (he : e.Everywhere Q) (h : bottomUp rule e = .ok e') : e'.Everywhere Q := by
  induction e using childInduction generalizing e' with
  | step e ih =>
    rw [bottomUp_eq] at h
    obtain ⟨cs, hcs, h⟩ := bind_eq_ok.mp h
    have hforall := mapM_eq_ok.mp hcs
    have hnode : (e.setChildren cs).Everywhere Q :=
      everywhere_setChildren hset he.root hforall.length_eq.symm
        (forall_mem_of_forall₂ hforall fun c hc c' hc' => ih c hc (he.child hc) hc')
    obtain ⟨result, hresult, h⟩ := bind_eq_ok.mp h
    cases result with
    | none =>
      cases h
      exact hnode
    | some r =>
      cases h
      exact hrule _ _ hnode hresult

end Pass

end QueryLowering
