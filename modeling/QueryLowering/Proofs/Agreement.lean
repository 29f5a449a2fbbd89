import QueryLowering.Proofs.Steps

/-!
Results that agree. Two computations agree if both give values that are related, or if both fail
with failures of one kind; what the failures say may differ. Steps that agree also leave the same
state behind, and keep an invariant of it. Agreement goes through all combinators, so two runs are
compared part by part.
-/

namespace QueryLowering

variable {α β γ δ σ : Type}

/-- Related values, or failures of one kind. -/
inductive Agree (R : α → β → Prop) : Except Failure α → Except Failure β → Prop
  | ok {a : α} {b : β} : R a b → Agree R (.ok a) (.ok b)
  | error {f g : Failure} : f.kind = g.kind → Agree R (.error f) (.error g)

namespace Agree

variable {R : α → β → Prop} {S : γ → δ → Prop} {x : Except Failure α} {y : Except Failure β}

theorem bind {f : α → Except Failure γ} {g : β → Except Failure δ} (h : Agree R x y)
    (hfg : ∀ a b, R a b → Agree S (f a) (g b)) : Agree S (x >>= f) (y >>= g) := by
  cases h with
  | ok hab => exact hfg _ _ hab
  | error hkind => exact .error hkind

theorem map {f : α → γ} {g : β → δ} (h : Agree R x y) (hfg : ∀ a b, R a b → S (f a) (g b)) :
    Agree S (f <$> x) (g <$> y) := by
  cases h with
  | ok hab => exact .ok (hfg _ _ hab)
  | error hkind => exact .error hkind

/-- Traversals of one list agree if their steps do. -/
theorem mapM {f : γ → Except Failure α} {g : γ → Except Failure β} {xs : List γ}
    (h : ∀ x ∈ xs, Agree R (f x) (g x)) :
    Agree (fun as bs => List.Forall₂ R as bs ∧ as.length = xs.length) (xs.mapM f) (xs.mapM g) := by
  induction xs with
  | nil => exact .ok ⟨.nil, rfl⟩
  | cons x xs ih =>
    rw [List.mapM_cons, List.mapM_cons]
    refine (h x List.mem_cons_self).bind fun a b hab => ?_
    refine (ih fun x hx => h x (List.mem_cons_of_mem _ hx)).bind fun as bs habs => ?_
    exact .ok ⟨.cons hab habs.1, congrArg Nat.succ habs.2⟩

/-- What is known of all values of the first result is known of the related ones. -/
theorem of_left {P : α → Prop} (h : Agree R x y) (hP : ∀ a, x = .ok a → P a) :
    Agree (fun a b => R a b ∧ P a) x y := by
  cases h with
  | ok hab => exact .ok ⟨hab, hP _ rfl⟩
  | error hkind => exact .error hkind

/-- What a failure is enriched with does not matter. -/
theorem mapError {f g : Failure → Failure} (h : Agree R x y) (hf : ∀ e, (f e).kind = e.kind)
    (hg : ∀ e, (g e).kind = e.kind) : Agree R (x.mapError f) (y.mapError g) := by
  cases h with
  | ok hab => exact .ok hab
  | error hkind =>
    refine .error ?_
    rw [hf, hg, hkind]

end Agree

/-- A result agrees with itself if its value is related to itself. -/
theorem agree_self {R : α → α → Prop} {x : Except Failure α} (h : ∀ a, x = .ok a → R a a) :
    Agree R x x := by
  cases x with
  | ok a => exact .ok (h a rfl)
  | error f => exact .error rfl

/-- A list of results whose members are images under one function is the image of a list. -/
theorem eq_map_of_forall₂ {P : α → Prop} {φ : α → β} {xs : List α} {ys : List β}
    (h : List.Forall₂ (fun x y => P x ∧ y = φ x) xs ys) : (∀ x ∈ xs, P x) ∧ ys = xs.map φ := by
  induction h with
  | nil => exact ⟨nofun, rfl⟩
  | cons hxy _ ih =>
    obtain ⟨hx, rfl⟩ := hxy
    exact ⟨List.forall_mem_cons.mpr ⟨hx, ih.1⟩, congrArg _ ih.2⟩

/-- Related values in one state that satisfies the invariant, or failures of one kind. -/
inductive AgreeAt (I : σ → Prop) (R : α → β → Prop) :
    Except Failure α × σ → Except Failure β × σ → Prop
  | ok {a : α} {b : β} {s : σ} : R a b → I s → AgreeAt I R (.ok a, s) (.ok b, s)
  | error {f g : Failure} {s t : σ} : f.kind = g.kind → AgreeAt I R (.error f, s) (.error g, t)

/-- What comes after may rely on what the first of two steps has given. -/
theorem AgreeAt.bind {I : σ → Prop} {R : α → β → Prop} {S : γ → δ → Prop} {x : StateStep σ α}
    {y : StateStep σ β} {f : α → StateStep σ γ} {g : β → StateStep σ δ} {s : σ}
    (h : AgreeAt I R (x.run.run s) (y.run.run s))
    (hfg : ∀ a b s', x.Gives s a s' → R a b → I s' →
      AgreeAt I S ((f a).run.run s') ((g b).run.run s')) :
    AgreeAt I S ((x >>= f).run.run s) ((y >>= g).run.run s) := by
  rw [StateStep.run_bind, StateStep.run_bind]
  unfold StateStep.Gives at hfg
  generalize x.run.run s = left at h hfg ⊢
  generalize y.run.run s = right at h ⊢
  cases h with
  | ok hab ht => exact hfg _ _ _ rfl hab ht
  | error hkind => exact .error hkind

namespace StateStep

/-- Begun in the same state, if that satisfies the invariant, the steps agree. -/
def Agree (I : σ → Prop) (R : α → β → Prop) (x : StateStep σ α) (y : StateStep σ β) : Prop :=
  ∀ s, I s → AgreeAt I R (x.run.run s) (y.run.run s)

variable {I : σ → Prop} {R : α → β → Prop} {S : γ → δ → Prop} {x : StateStep σ α}
  {y : StateStep σ β}

theorem agree_pure {a : α} {b : β} (h : R a b) :
    Agree I R (Pure.pure a : StateStep σ α) (Pure.pure b : StateStep σ β) :=
  fun _ hs => .ok h hs

theorem agree_throw {f g : Failure} (h : f.kind = g.kind) :
    Agree I R (throw f : StateStep σ α) (throw g : StateStep σ β) :=
  fun _ _ => .error h

theorem agree_get : Agree I (fun s t => s = t ∧ I s) (get : StateStep σ σ) (get : StateStep σ σ) :=
  fun _ hs => .ok ⟨rfl, hs⟩ hs

theorem agree_modifyGet {f : σ → α × σ} {g : σ → β × σ}
    (h : ∀ s, I s → R (f s).1 (g s).1 ∧ (g s).2 = (f s).2 ∧ I (f s).2) :
    Agree I R (modifyGet f : StateStep σ α) (modifyGet g : StateStep σ β) := by
  intro s hs
  obtain ⟨hR, hstate, hI⟩ := h s hs
  change AgreeAt I R (.ok (f s).1, (f s).2) (.ok (g s).1, (g s).2)
  rw [hstate]
  exact .ok hR hI

theorem agree_ofExcept {x : Except Failure α} {y : Except Failure β}
    (h : QueryLowering.Agree R x y) :
    Agree I R (ofExcept x : StateStep σ α) (ofExcept y : StateStep σ β) := by
  intro s hs
  cases h with
  | ok hab => exact .ok hab hs
  | error hkind => exact .error hkind

namespace Agree

theorem bind {f : α → StateStep σ γ} {g : β → StateStep σ δ} (h : Agree I R x y)
    (hfg : ∀ a b, R a b → Agree I S (f a) (g b)) : Agree I S (x >>= f) (y >>= g) :=
  fun s hs => (h s hs).bind fun a b s' _ hab hs' => hfg a b hab s' hs'

theorem map {f : α → γ} {g : β → δ} (h : Agree I R x y) (hfg : ∀ a b, R a b → S (f a) (g b)) :
    Agree I S (f <$> x) (g <$> y) := by
  rw [map_eq_pure_bind, map_eq_pure_bind]
  exact h.bind fun a b hab => agree_pure (hfg a b hab)

theorem mapM {f : γ → StateStep σ α} {g : γ → StateStep σ β} {xs : List γ}
    (h : ∀ x ∈ xs, Agree I R (f x) (g x)) :
    Agree I (fun as bs => List.Forall₂ R as bs ∧ as.length = xs.length) (xs.mapM f)
      (xs.mapM g) := by
  induction xs with
  | nil => exact agree_pure ⟨.nil, rfl⟩
  | cons x xs ih =>
    rw [List.mapM_cons, List.mapM_cons]
    refine (h x List.mem_cons_self).bind fun a b hab => ?_
    refine (ih fun x hx => h x (List.mem_cons_of_mem _ hx)).bind fun as bs habs => ?_
    exact agree_pure ⟨.cons hab habs.1, congrArg Nat.succ habs.2⟩

/-- What one of two steps that agree gives, the other gives up to the relation. -/
theorem gives {s s' : σ} {a : α} (h : Agree I R x y) (hs : I s) (hx : x.Gives s a s') :
    ∃ b, y.Gives s b s' ∧ R a b ∧ I s' := by
  have hrun := h s hs
  unfold Gives at hx ⊢
  rw [hx] at hrun
  generalize y.run.run s = result at hrun
  cases hrun with
  | ok hab hs' => exact ⟨_, rfl, hab, hs'⟩

end Agree

end StateStep

end QueryLowering
