import QueryLowering.Proofs.Settled.Rules

/-!
Trees without a null guard that could be dropped. Whether a guard can be dropped depends on the
scope in which it stands, so the property is one of nodes together with their scopes.
-/

namespace QueryLowering

namespace Expr

/-- Every node has the property in its scope, where `inner` gives the scope of a child by its
position. -/
def EverywhereIn {S : Type} (inner : S → Expr → Nat → S) (Q : S → Expr → Prop) (s : S) (e : Expr) :
    Prop :=
  Q s e ∧ ∀ c ∈ e.children.attach.zipIdx, EverywhereIn inner Q (inner s e c.2) c.1.1
termination_by e
decreasing_by exact sizeOf_lt_of_mem_children c.1.2

theorem everywhereIn_iff {S : Type} {inner : S → Expr → Nat → S} {Q : S → Expr → Prop} {s : S}
    {e : Expr} :
    EverywhereIn inner Q s e ↔
      Q s e ∧ ∀ c ∈ e.children.zipIdx, EverywhereIn inner Q (inner s e c.2) c.1 := by
  have hzip : e.children.zipIdx = e.children.attach.zipIdx.map fun c => (c.1.1, c.2) := by
    conv => lhs; rw [← List.attach_map_subtype_val e.children, List.zipIdx_map]
    rfl
  rw [EverywhereIn, hzip]
  simp only [List.forall_mem_map]

theorem everywhereIn_of_children_eq_singleton {S : Type} {inner : S → Expr → Nat → S}
    {Q : S → Expr → Prop} {s : S} {e c : Expr} (h : e.children = [c]) :
    EverywhereIn inner Q s e ↔ Q s e ∧ EverywhereIn inner Q (inner s e 0) c := by
  rw [everywhereIn_iff, h, List.zipIdx_singleton]
  simp only [List.mem_singleton, forall_eq]

end Expr

namespace Pass.NullGuard

open QueryLowering.Expr

variable {model : Model} {Γ : Scope} {optional : Option Nat} {e : Expr}

/-- No guard of the tree can be dropped. -/
def Settled (model : Model) (Γ : Scope) (optional : Option Nat) (e : Expr) : Prop :=
  EverywhereIn inner (fun place n => unguardNode model place.1 n = n) (Γ, optional) e

theorem Settled.remove_eq_self (h : Settled model Γ optional e) :
    remove model Γ optional e = e := by
  induction e using childInduction generalizing Γ optional with
  | step e ih =>
    obtain ⟨hroot, hchildren⟩ := everywhereIn_iff.mp h
    have hmap : (e.children.zipIdx.map fun c => remove model (inner (Γ, optional) e c.2).1
        (inner (Γ, optional) e c.2).2 c.1) = e.children := by
      conv => rhs; rw [← List.zipIdx_map_fst 0 e.children]
      exact List.map_congr_left fun c hc =>
        ih c.1 (List.fst_mem_of_mem_zipIdx hc) (hchildren c hc)
    rw [remove_eq, hmap, setChildren_children]
    exact hroot

/-- How many conditionals stand above each other, each in a branch of the one above it. A guard that is
dropped leaves one of its branches behind, which has fewer of them than the guard has: so the guard
itself does not come back. -/
def branching : Expr → Nat
  | .cond _ whenTrue whenFalse _ => 1 + max (branching whenTrue) (branching whenFalse)
  | _ => 0

theorem branching_of_kindName (h : e.kindName ≠ "Conditional") : branching e = 0 := by
  cases e with
  | cond => exact absurd rfl h
  | _ =>
    rw [branching]
    intros
    contradiction

theorem branching_remove_le (model : Model) (Γ : Scope) (optional : Option Nat) (e : Expr) :
    branching (remove model Γ optional e) ≤ branching e := by
  induction e using childInduction generalizing Γ optional with
  | step e ih =>
    cases e with
    | cond test whenTrue whenFalse type =>
      have htrue := ih whenTrue (by simp [children]) Γ none
      have hfalse := ih whenFalse (by simp [children]) Γ none
      rw [remove, branching]
      rcases unguard_cases model Γ (remove model Γ none test) (remove model Γ none whenTrue)
        (remove model Γ none whenFalse) type with h | h | h
      · rw [h, branching]
        omega
      · rw [h]
        omega
      · rw [h]
        omega
    | _ =>
      rw [remove_of_kindName (by simp [kindName]),
        branching_of_kindName (by rw [kindName_setChildren]; simp [kindName])]
      exact Nat.zero_le _

theorem children_eq_of_remove_eq_self (h : remove model Γ optional e = e) :
    (e.children.zipIdx.map fun c => remove model (inner (Γ, optional) e c.2).1
      (inner (Γ, optional) e c.2).2 c.1) = e.children := by
  refine eq_children_of_setChildren_eq (by simp) ?_
  cases e with
  | cond test whenTrue whenFalse type =>
    rw [remove] at h
    rcases unguard_cases model Γ (remove model Γ none test) (remove model Γ none whenTrue)
      (remove model Γ none whenFalse) type with hkept | hcut | hcut
    · exact hkept.symm.trans h
    -- A guard that is cut would have to be one of its own branches.
    · have hle := branching_remove_le model Γ none whenTrue
      rw [← hcut, h, branching] at hle
      omega
    · have hle := branching_remove_le model Γ none whenFalse
      rw [← hcut, h, branching] at hle
      omega
  | _ =>
    rw [remove_of_kindName (by simp [kindName])] at h
    exact h

/-- A tree is given back exactly if none of its guards can be dropped. -/
theorem settled_iff : Settled model Γ optional e ↔ remove model Γ optional e = e := by
  refine ⟨Settled.remove_eq_self, fun h => ?_⟩
  induction e using childInduction generalizing Γ optional with
  | step e ih =>
    -- The children come back, so the guard that is tested is the one in the tree.
    have hmap := children_eq_of_remove_eq_self h
    rw [remove_eq, hmap, setChildren_children] at h
    refine everywhereIn_iff.mpr ⟨h, fun c hc => ?_⟩
    refine ih c.1 (List.fst_mem_of_mem_zipIdx hc) ?_
    have hsame := List.map_inj_left.mp (hmap.trans (List.zipIdx_map_fst 0 e.children).symm)
    exact hsame c hc

end Pass.NullGuard

end QueryLowering
