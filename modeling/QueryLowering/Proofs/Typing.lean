import QueryLowering.Proofs.Everywhere

/-!
Rewriting that keeps data types. Parents see of a child its type, and of a lambda, bare or quoted, the
type of its result. A tree keeps its type if its children are replaced by others of which as much
holds.
-/

namespace QueryLowering.Expr

variable {e e' e'' : Expr}

/-- One expression may take the place of another without a change of the types around it: it has the
same type and, as a lambda or in a quote, the same type of result. -/
structure TypedLike (e' e : Expr) : Prop where
  type : e'.type = e.type
  lambdaType : e'.lambdaType = e.lambdaType
  quoted : (quote e').lambdaType = (quote e).lambdaType

theorem TypedLike.trans (h : e''.TypedLike e') (h' : e'.TypedLike e) : e''.TypedLike e :=
  ⟨h.type.trans h'.type, h.lambdaType.trans h'.lambdaType, h.quoted.trans h'.quoted⟩

/-- Neither a lambda nor a quote. -/
def isPlain : Expr → Bool
  | lambda .. | quote _ => false
  | _ => true

theorem isPlain_setChildren (e : Expr) (cs : List Expr) :
    (e.setChildren cs).isPlain = e.isPlain := by
  unfold setChildren
  split <;> rfl

/-- Of anything but lambdas and quotes only the type is seen. -/
theorem typedLike_of_isPlain (htype : e'.type = e.type) (he' : e'.isPlain = true)
    (he : e.isPlain = true) : e'.TypedLike e := by
  have hnull : ∀ {x : Expr}, x.isPlain = true → x.lambdaType = .null ∧ (quote x).lambdaType = .null := by
    intro x hx
    cases x with
    | lambda => cases hx
    | quote => cases hx
    | _ => exact ⟨rfl, rfl⟩
  exact ⟨htype, (hnull he').1.trans (hnull he).1.symm, (hnull he').2.trans (hnull he).2.symm⟩

theorem memberTypes_zipWith {members : List (String × Expr)} {cs : List Expr}
    (h : List.Forall₂ (fun c c' => c'.TypedLike c) (members.map (·.2)) cs) :
    memberTypes (List.zipWith (fun m c => (m.1, c)) members cs) = memberTypes members := by
  induction members generalizing cs with
  | nil =>
    cases h
    rfl
  | cons m members ih =>
    rcases h with _ | ⟨hc, h⟩
    simp only [List.zipWith_cons_cons, memberTypes, hc.type, ih h]

theorem type_setChildren {cs : List Expr}
    (h : List.Forall₂ (fun c c' => c'.TypedLike c) e.children cs) :
    (e.setChildren cs).type = e.type := by
  -- A type is kept in the node or read off some of its children.
  cases e with
  | const | param | baseTable | sourceRef | functionCall | tableFunction => rfl
  | call m receiver args type =>
    cases receiver with
    | none => rfl
    | some r =>
      cases h
      rfl
  | invoke callee args type =>
    cases h
    rfl
  | cond test whenTrue whenFalse type =>
    rcases h with _ | ⟨_, _ | ⟨_, _ | ⟨_, _ | _⟩⟩⟩
    rfl
  | member target name type =>
    rcases h with _ | ⟨hc, _ | _⟩
    rfl
  | lambda params body =>
    rcases h with _ | ⟨hc, _ | _⟩
    exact congrArg (DataType.function _) hc.type
  | quote inner =>
    rcases h with _ | ⟨hc, _ | _⟩
    exact hc.type
  | unary op operand =>
    rcases h with _ | ⟨hc, _ | _⟩
    cases op with
    | negate => exact hc.type
    | _ => rfl
  | derivedTable row subquery =>
    rcases h with _ | ⟨hc, _ | _⟩
    exact hc.type
  | binary op left right =>
    rcases h with _ | ⟨hl, _ | ⟨hr, _ | _⟩⟩
    simp only [setChildren, type, hl.type]
  | navigationJoin label outer inner outerKey innerKey =>
    rcases h with _ | ⟨ho, _ | ⟨_, _ | ⟨_, _ | ⟨_, _ | _⟩⟩⟩⟩
    exact ho.type
  | object members => exact congrArg DataType.record (memberTypes_zipWith h)
  | pivotTable row source key aggregate selector =>
    cases selector with
    | none =>
      rcases h with _ | ⟨_, _ | ⟨hk, _ | ⟨ha, _ | _⟩⟩⟩
      simp only [setChildren, type, hk.lambdaType, ha.lambdaType]
    | some selector =>
      rcases h with _ | ⟨_, _ | ⟨_, _ | ⟨_, _ | ⟨hr, _ | _⟩⟩⟩⟩
      simp only [setChildren, type, hr.lambdaType]

/-- A node over children of the same types takes the place of the node itself. -/
theorem typedLike_setChildren {cs : List Expr}
    (h : List.Forall₂ (fun c c' => c'.TypedLike c) e.children cs) :
    (e.setChildren cs).TypedLike e := by
  cases hplain : e.isPlain with
  | true =>
    exact typedLike_of_isPlain (type_setChildren h) ((isPlain_setChildren e cs).trans hplain) hplain
  | false =>
    cases e with
    | lambda params body =>
      have htype := type_setChildren h
      rcases h with _ | ⟨hc, _ | _⟩
      exact ⟨htype, hc.type, hc.type⟩
    | quote inner =>
      have htype := type_setChildren h
      rcases h with _ | ⟨hc, _ | _⟩
      exact ⟨htype, hc.quoted, rfl⟩
    | _ => cases hplain

end QueryLowering.Expr

namespace QueryLowering.Pass

open QueryLowering.Expr

/-- A traversal from the leaves to the root keeps types as its rule does. -/
theorem typedLike_bottomUp {rule : Rule}
    (hrule : ∀ n r, rule n = .ok (some r) → r.TypedLike n) {e e' : Expr}
    (h : bottomUp rule e = .ok e') : e'.TypedLike e := by
  induction e using childInduction generalizing e' with
  | step e ih =>
    rw [bottomUp_eq] at h
    obtain ⟨cs, hcs, h⟩ := bind_eq_ok.mp h
    have hnode := typedLike_setChildren
      (forall₂_imp_of_mem (mapM_eq_ok.mp hcs) fun c hc c' hc' => ih c hc hc')
    obtain ⟨result, hresult, h⟩ := bind_eq_ok.mp h
    cases result with
    | none =>
      cases h
      exact hnode
    | some r =>
      cases h
      exact (hrule _ _ hresult).trans hnode

end QueryLowering.Pass
