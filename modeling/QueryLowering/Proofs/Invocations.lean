import Mathlib
import QueryLowering.Proofs.Persistence
import QueryLowering.Sample

/-!
No invocation is left in a lowered query. Inlining puts arguments into a body before it looks at the
result, so it may uncover invocations as it goes; since it goes on with what it has put together, it
ends without any. The passes that follow put none in.
-/

namespace QueryLowering

namespace Expr

def isInvoke : Expr → Bool
  | invoke .. => true
  | _ => false

theorem exists_of_isInvoke {e : Expr} (h : e.isInvoke = true) :
    ∃ callee args type, e = invoke callee args type := by
  cases e with
  | invoke callee args type => exact ⟨callee, args, type, rfl⟩
  | _ => cases h

theorem isInvoke_setChildren (e : Expr) (cs : List Expr) :
    (e.setChildren cs).isInvoke = e.isInvoke := by
  unfold setChildren
  split <;> rfl

theorem persistent_not_isInvoke : Persistent fun n => n.isInvoke = false where
  setChildren e cs h := by rw [isInvoke_setChildren, h]
  ordinary e h := by
    cases e with
    | invoke => cases h
    | _ => rfl

/-- A property that a delegate has only if all nodes of its body have it. -/
def DelegateClosed (Q : Expr → Prop) : Prop :=
  ∀ name body type, Q (const (.delegate name (some body)) type) → body.Everywhere Q

end Expr

namespace Pass.Inlining

open QueryLowering.Expr

variable {budget : Nat} {e e' : Expr}

/-- An invocation is inlined by inlining a known body with the arguments put in. The callee is
inlined first if it does not stand for a lambda by itself. -/
theorem inline_invoke_eq_ok {callee : Expr} {args : List Expr} {type : DataType}
    (h : inline budget (.invoke callee args type) = .ok e') :
    ∃ callee' params body rest,
      (callee' = callee ∨ inline budget callee = .ok callee') ∧
        knownLambda? callee' = some (params, body) ∧ budget = rest + 1 ∧
        inline rest (subst (params.zip args) body) = .ok e' := by
  rw [inline.eq_def] at h
  dsimp only at h
  obtain ⟨callee', hcallee, h⟩ := bind_eq_ok.mp h
  have hfrom : callee' = callee ∨ inline budget callee = .ok callee' := by
    split at hcallee
    · exact .inl (Except.ok.inj hcallee).symm
    · exact .inr hcallee
  split at h
  · cases h
  rename_i params body hknown
  split at h
  · cases h
  cases budget with
  | zero => cases h
  | succ rest => exact ⟨callee', params, body, rest, hfrom, hknown, rfl, h⟩

theorem inline_eq_traverse (he : e.isInvoke = false) :
    inline budget e = e.traverse fun c _ => inline budget c := by
  cases e with
  | invoke => cases he
  | _ =>
    rw [inline]
    intros
    contradiction

variable {Q : Expr → Prop}

/-- The body of the lambda that a callee stands for is a part of the callee or of a delegate. -/
theorem everywhere_knownLambda? (hdelegate : DelegateClosed Q) (he : e.Everywhere Q)
    {params : List Param} {body : Expr} (h : knownLambda? e = some (params, body)) :
    body.Everywhere Q := by
  unfold knownLambda? at h
  split at h
  · cases h
    exact he.child (by simp [children])
  · exact he.lambda? h
  · exact (hdelegate _ _ _ he.root).lambda? h
  · cases h

/-- Inlining keeps what delegates have in their bodies too, and takes out every invocation. The
induction is on the budget and then on the tree: the body that an invocation is replaced by may be
larger than the invocation, but is inlined with a smaller budget. -/
theorem everywhere_inline (hset : ∀ e cs, Q e → Q (e.setChildren cs))
    (hdelegate : DelegateClosed Q) (he : e.Everywhere Q) (h : inline budget e = .ok e') :
    e'.Everywhere fun n => Q n ∧ n.isInvoke = false := by
  induction budget using Nat.strongRecOn generalizing e e' with
  | ind budget ihBudget =>
    induction e using childInduction generalizing e' with
    | step e ih =>
      cases hinvoke : e.isInvoke with
      | true =>
        obtain ⟨callee, args, type, rfl⟩ := exists_of_isInvoke hinvoke
        obtain ⟨callee', params, body, rest, hfrom, hknown, rfl, hrest⟩ := inline_invoke_eq_ok h
        -- The body that is inlined next comes from the callee, or from what the callee became.
        have hcallee : callee'.Everywhere Q := by
          have hmem : callee ∈ (Expr.invoke callee args type).children := by simp [children]
          rcases hfrom with rfl | hfrom
          · exact he.child hmem
          · exact (ih callee hmem (he.child hmem) hfrom).mono fun n hn => hn.1
        have hσ : ∀ b ∈ params.zip args, b.2.Everywhere Q :=
          fun b hb => he.child (List.mem_cons_of_mem _ (List.of_mem_zip hb).2)
        have hbody := everywhere_knownLambda? hdelegate hcallee hknown
        exact ihBudget rest (Nat.lt_succ_self rest) (hbody.subst hset hσ) hrest
      | false =>
        rw [inline_eq_traverse hinvoke, traverse_eq, map_eq_ok] at h
        obtain ⟨cs, hcs, rfl⟩ := h
        have hforall := mapM_eq_ok.mp hcs
        refine everywhere_setChildren
          (fun e cs hn => ⟨hset e cs hn.1, (isInvoke_setChildren e cs).trans hn.2⟩)
          ⟨he.root, hinvoke⟩ hforall.length_eq.symm ?_
        exact forall_mem_of_forall₂ hforall fun c hc c' hc' => ih c hc (he.child hc) hc'

end Pass.Inlining

namespace Pass

/-- The passes that see a tree without invocations. -/
def afterInlining : List Pass :=
  [membership, groupJoin, nullGuard, keyComparison, memberPushdown, navigation, databaseFunction]

theorem all_eq : all = [promotion, markers] ++ inlining :: afterInlining := rfl

variable {ctx : Context} {e r : Expr} {s s' : State}

theorem everywhere_run_inlining {Q : Expr → Prop} (hset : ∀ e cs, Q e → Q (e.setChildren cs))
    (hdelegate : Expr.DelegateClosed Q) (he : e.Everywhere Q)
    (h : (inlining.run ctx e).Gives s r s') :
    r.Everywhere fun n => Q n ∧ n.isInvoke = false :=
  Inlining.everywhere_inline hset hdelegate he (StateStep.gives_ofExcept.mp h).1

theorem not_isInvoke_run_inlining (h : (inlining.run ctx e).Gives s r s') :
    r.Everywhere fun n => n.isInvoke = false := by
  have htrivial : e.Everywhere fun _ => True := fun _ _ => trivial
  refine (everywhere_run_inlining (fun _ _ _ => trivial) ?_ htrivial h).mono fun n hn => hn.2
  exact fun _ _ _ _ _ _ => trivial

theorem ne_inlining_of_mem_afterInlining {p : Pass} (hp : p ∈ afterInlining) : p ≠ inlining := by
  rintro rfl
  simp [afterInlining] at hp

end Pass

/-- A query is lowered by two passes that see it with its invocations, by inlining, and by passes that
see what inlining has left. -/
theorem exists_inlined_of_lower {ctx : Context} {e : Expr} {l : Lowered} (h : lower ctx e = .ok l) :
    ∃ e₁ e₂ e₃ s₁ s₂ s₃ s, (Pass.promotion.run ctx e).Gives .fresh e₁ s₁ ∧
      (Pass.markers.run ctx e₁).Gives s₁ e₂ s₂ ∧ (Pass.inlining.run ctx e₂).Gives s₂ e₃ s₃ ∧
      (Pass.runAll ctx Pass.afterInlining e₃).Gives s₃ l.expr s := by
  obtain ⟨s, hrun, -⟩ := lower_eq_ok.mp h
  obtain ⟨e₁, s₁, hpromotion, hrun⟩ := Pass.gives_runAll_cons.mp hrun
  obtain ⟨e₂, s₂, hmarkers, hrun⟩ := Pass.gives_runAll_cons.mp hrun
  obtain ⟨e₃, s₃, hinlining, hafter⟩ := Pass.gives_runAll_cons.mp hrun
  exact ⟨e₁, e₂, e₃, s₁, s₂, s₃, s, hpromotion, hmarkers, hinlining, hafter⟩

theorem not_isInvoke_of_lower {ctx : Context} {e : Expr} {l : Lowered} (h : lower ctx e = .ok l) :
    l.expr.Everywhere fun n => n.isInvoke = false := by
  obtain ⟨e₁, e₂, e₃, s₁, s₂, s₃, s, -, -, hinlining, hafter⟩ := exists_inlined_of_lower h
  have he₃ := Pass.not_isInvoke_run_inlining hinlining
  exact Pass.everywhere_runAll Expr.persistent_not_isInvoke (by decide) he₃ hafter

/-- A lowered query has no invocation in it: inlining leaves none, and no pass that follows puts one
into a tree without them. -/
theorem lower_leaves_no_invocation (ctx : Context) :
    (∀ e l, lower ctx e = .ok l → ∀ n ∈ l.expr.nodes, n.isInvoke = false) ∧
      (∀ e r s s', (Pass.inlining.run ctx e).Gives s r s' → ∀ n ∈ r.nodes, n.isInvoke = false) ∧
      ∀ p ∈ Pass.afterInlining, ∀ e r s s', (∀ n ∈ e.nodes, n.isInvoke = false) →
        (p.run ctx e).Gives s r s' → ∀ n ∈ r.nodes, n.isInvoke = false := by
  refine ⟨fun e l h => not_isInvoke_of_lower h, fun e r s s' h => ?_, fun p hp e r s s' he h => ?_⟩
  · exact Pass.not_isInvoke_run_inlining h
  · exact Pass.everywhere_run Expr.persistent_not_isInvoke
      (Pass.ne_inlining_of_mem_afterInlining hp) he h

/-- A delegate that applies a function twice, invoked with a function that adds one. Its body shows
no invocation of a known lambda until the function is put in. -/
def invokeTwice : Expr :=
  let f : Param := ⟨"f", .function [.int32] .int32⟩
  let x : Param := ⟨"x", .int32⟩
  .apply
    (.delegate "twice" (.lambda [f, x] (.apply (.param f) [.apply (.param f) [.param x]])))
    [.lambda [x] (.binary .add (.param x) (.literal (.int32 1))), .literal (.int32 7)]

/-- What is left of the two invocations is the sum. -/
def addedTwice : Expr :=
  .binary .add (.binary .add (.literal (.int32 7)) (.literal (.int32 1))) (.literal (.int32 1))

theorem lower_invokeTwice :
    invokeTwice.isInvoke = true ∧
      lower ⟨Sample.model, Sample.catalog⟩ invokeTwice = .ok ⟨addedTwice, {}⟩ ∧
      ∀ n ∈ addedTwice.nodes, n.isInvoke = false := by
  have h : lower ⟨Sample.model, Sample.catalog⟩ invokeTwice = .ok ⟨addedTwice, {}⟩ := by cbv
  exact ⟨rfl, h, (lower_leaves_no_invocation _).1 _ _ h⟩

end QueryLowering
