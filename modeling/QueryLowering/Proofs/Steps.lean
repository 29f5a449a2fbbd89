import Mathlib.Data.List.Forall2
import QueryLowering.State

/-!
Steps that succeed. A composed step gives a result exactly if its parts do, one after the other; a
step over a list gives its results one by one, and what every single step keeps, all of them keep.
-/

namespace QueryLowering

section Except

variable {α β : Type}

theorem bind_eq_ok {x : Except Failure α} {f : α → Except Failure β} {b : β} :
    (x >>= f) = .ok b ↔ ∃ a, x = .ok a ∧ f a = .ok b := by
  cases x with
  | error e => simp [bind, Except.bind]
  | ok a => simp [bind, Except.bind]

theorem map_eq_ok {x : Except Failure α} {f : α → β} {b : β} :
    (f <$> x) = .ok b ↔ ∃ a, x = .ok a ∧ f a = b := by
  cases x with
  | error e => simp [Functor.map, Except.map]
  | ok a => simp [Functor.map, Except.map]

theorem mapError_eq_ok {x : Except Failure α} {f : Failure → Failure} {a : α} :
    x.mapError f = .ok a ↔ x = .ok a := by
  cases x with
  | error e => simp [Except.mapError]
  | ok b => simp [Except.mapError]

/-- A traversal succeeds with the list of what its steps succeed with. -/
theorem mapM_eq_ok {f : α → Except Failure β} {xs : List α} {ys : List β} :
    xs.mapM f = .ok ys ↔ List.Forall₂ (fun x y => f x = .ok y) xs ys := by
  induction xs generalizing ys with
  | nil =>
    rw [List.mapM_nil, List.forall₂_nil_left_iff]
    exact ⟨fun h => (Except.ok.inj h).symm, fun h => h ▸ rfl⟩
  | cons x xs ih =>
    rw [List.mapM_cons, bind_eq_ok, List.forall₂_cons_left_iff]
    constructor
    · rintro ⟨y, hy, h⟩
      obtain ⟨ys', hys, h⟩ := bind_eq_ok.mp h
      exact ⟨y, ys', hy, ih.mp hys, (Except.ok.inj h).symm⟩
    · rintro ⟨y, ys', hy, hys, rfl⟩
      exact ⟨y, hy, bind_eq_ok.mpr ⟨ys', ih.mpr hys, rfl⟩⟩

/-- A traversal succeeds if all of its steps do. -/
theorem exists_mapM_eq_ok {f : α → Except Failure β} {xs : List α}
    (h : ∀ x ∈ xs, ∃ y, f x = .ok y) : ∃ ys, xs.mapM f = .ok ys := by
  induction xs with
  | nil => exact ⟨[], rfl⟩
  | cons x xs ih =>
    obtain ⟨y, hy⟩ := h x List.mem_cons_self
    obtain ⟨ys, hys⟩ := ih fun z hz => h z (List.mem_cons_of_mem _ hz)
    rw [mapM_eq_ok] at hys
    exact ⟨y :: ys, mapM_eq_ok.mpr (.cons hy hys)⟩

end Except

/-- What is found under a key stands in the list with it. -/
theorem mem_of_lookup {κ ν : Type} [BEq κ] [LawfulBEq κ] {entries : List (κ × ν)} {key : κ}
    {value : ν} (h : entries.lookup key = some value) : (key, value) ∈ entries := by
  obtain ⟨before, after, rfl, -⟩ := List.lookup_eq_some_iff.mp h
  exact List.mem_append_right _ List.mem_cons_self

/-- What holds of everything that is related to members of a list holds of a list related to it. -/
theorem forall_mem_of_forall₂ {α β : Type} {R : α → β → Prop} {P : β → Prop} {xs : List α}
    {ys : List β} (h : List.Forall₂ R xs ys) (hP : ∀ x ∈ xs, ∀ y, R x y → P y) :
    ∀ y ∈ ys, P y := by
  induction h with
  | nil => simp
  | @cons x y xs ys hxy _ ih =>
    intro z hz
    rcases List.mem_cons.mp hz with rfl | hz
    · exact hP x List.mem_cons_self _ hxy
    · exact ih (fun x hx => hP x (List.mem_cons_of_mem _ hx)) z hz

/-- A member of a list has a partner in a list that is related to it. -/
theorem exists_mem_of_forall₂ {α β : Type} {R : α → β → Prop} {xs : List α} {ys : List β}
    (h : List.Forall₂ R xs ys) {x : α} (hx : x ∈ xs) : ∃ y ∈ ys, R x y :=
  forall_mem_of_forall₂ (P := fun x => ∃ y ∈ ys, R x y) (List.Forall₂.flip (R := flip R) h)
    (fun y hy _ hxy => ⟨y, hy, hxy⟩) x hx

/-- A position of a list has a partner at the same position of a list that is related to it. -/
theorem exists_getElem?_of_forall₂ {α β : Type} {R : α → β → Prop} {xs : List α} {ys : List β}
    (h : List.Forall₂ R xs ys) {i : Nat} {y : β} (hy : ys[i]? = some y) :
    ∃ x, xs[i]? = some x ∧ R x y := by
  induction h generalizing i with
  | nil => cases hy
  | @cons x _ _ _ hxy _ ih =>
    cases i with
    | zero =>
      cases hy
      exact ⟨x, rfl, hxy⟩
    | succ i => exact ih hy

theorem forall₂_imp_of_mem {α β : Type} {R S : α → β → Prop} {xs : List α} {ys : List β}
    (h : List.Forall₂ R xs ys) (hRS : ∀ x ∈ xs, ∀ y, R x y → S x y) : List.Forall₂ S xs ys := by
  induction h with
  | nil => exact .nil
  | cons hxy _ ih =>
    exact .cons (hRS _ List.mem_cons_self _ hxy)
      (ih fun x hx => hRS x (List.mem_cons_of_mem _ hx))

theorem exists_mem_zipIdx {α : Type} {xs : List α} {x : α} (h : x ∈ xs) :
    ∃ i, (x, i) ∈ xs.zipIdx := by
  obtain ⟨i, hi, rfl⟩ := List.getElem_of_mem h
  exact ⟨i, List.mem_zipIdx_iff_getElem?.mpr (List.getElem?_eq_getElem hi)⟩

/-- The members of a list may be numbered with or without the proofs that they are members. -/
theorem zipIdx_eq_map_attach {α : Type} (xs : List α) :
    xs.zipIdx = xs.attach.zipIdx.map fun x => (x.1.1, x.2) := by
  conv => lhs; rw [← List.attach_map_subtype_val xs, List.zipIdx_map]
  rfl

/-- A list that is related to itself, position by position, is so at every position. -/
theorem forall_mem_zipIdx_of_forall₂ {α : Type} {R : α × Nat → α → Prop} {xs : List α}
    (h : List.Forall₂ R xs.zipIdx xs) : ∀ x ∈ xs.zipIdx, R x x.1 := by
  have hself : List.Forall₂ (fun x y => R x y.1) xs.zipIdx xs.zipIdx := by
    refine List.forall₂_map_right_iff.mp ?_
    rw [List.zipIdx_map_fst]
    exact h
  exact List.forall₂_same.mp hself

theorem forall₂_comp {α β γ : Type} {R : α → β → Prop} {S : β → γ → Prop} {xs : List α}
    {ys : List β} {zs : List γ} (hR : List.Forall₂ R xs ys) (hS : List.Forall₂ S ys zs) :
    List.Forall₂ (fun x z => ∃ y, R x y ∧ S y z) xs zs := by
  induction hR generalizing zs with
  | nil =>
    cases hS
    exact .nil
  | cons hxy _ ih =>
    cases hS with
    | cons hyz hS => exact .cons ⟨_, hxy, hyz⟩ (ih hS)

namespace StateStep

variable {σ α β : Type}

/-- The step, begun in one state, succeeds with a result in another state. -/
def Gives (step : StateStep σ α) (s : σ) (a : α) (s' : σ) : Prop :=
  step.run.run s = (.ok a, s')

theorem gives_pure {a b : α} {s s' : σ} :
    (pure a : StateStep σ α).Gives s b s' ↔ b = a ∧ s' = s := by
  change ((Except.ok a, s) : Except Failure α × σ) = (.ok b, s') ↔ _
  simp only [Prod.mk.injEq, Except.ok.injEq]
  exact and_congr eq_comm eq_comm

theorem run_bind (x : StateStep σ α) (f : α → StateStep σ β) (s : σ) :
    (x >>= f).run.run s =
      match x.run.run s with
      | (.ok a, t) => (f a).run.run t
      | (.error e, t) => (.error e, t) := by
  change ExceptT.bindCont f (x.run.run s).1 (x.run.run s).2 = _
  rcases x.run.run s with ⟨_ | _, t⟩ <;> rfl

theorem gives_bind {x : StateStep σ α} {f : α → StateStep σ β} {b : β} {s s' : σ} :
    (x >>= f).Gives s b s' ↔ ∃ a t, x.Gives s a t ∧ (f a).Gives t b s' := by
  unfold Gives
  rw [run_bind]
  rcases x.run.run s with ⟨e | a, t⟩
  · constructor
    · intro h
      cases h
    · rintro ⟨a, t', h, -⟩
      cases h
  · constructor
    · intro h
      exact ⟨a, t, rfl, h⟩
    · rintro ⟨a', t', h, h'⟩
      cases h
      exact h'

theorem gives_map {x : StateStep σ α} {f : α → β} {b : β} {s s' : σ} :
    (f <$> x).Gives s b s' ↔ ∃ a, x.Gives s a s' ∧ f a = b := by
  rw [map_eq_pure_bind, gives_bind]
  simp only [gives_pure]
  constructor
  · rintro ⟨a, t, ha, rfl, rfl⟩
    exact ⟨a, ha, rfl⟩
  · rintro ⟨a, ha, rfl⟩
    exact ⟨a, s', ha, rfl, rfl⟩

theorem gives_ofExcept {x : Except Failure α} {a : α} {s s' : σ} :
    (StateStep.ofExcept x : StateStep σ α).Gives s a s' ↔ x = .ok a ∧ s' = s := by
  change ((x, s) : Except Failure α × σ) = (.ok a, s') ↔ _
  simp only [Prod.mk.injEq]
  exact and_congr Iff.rfl eq_comm

theorem not_gives_throw {f : Failure} {a : α} {s s' : σ} :
    ¬ (throw f : StateStep σ α).Gives s a s' := by
  intro h
  change ((Except.error f, s) : Except Failure α × σ) = (.ok a, s') at h
  simp at h

theorem gives_get {a s s' : σ} : (get : StateStep σ σ).Gives s a s' ↔ a = s ∧ s' = s := by
  change ((Except.ok s, s) : Except Failure σ × σ) = (.ok a, s') ↔ _
  simp only [Prod.mk.injEq, Except.ok.injEq]
  exact and_congr eq_comm eq_comm

theorem gives_set {t s s' : σ} {u : PUnit} :
    (set t : StateStep σ PUnit).Gives s u s' ↔ s' = t := by
  change ((Except.ok PUnit.unit, t) : Except Failure PUnit × σ) = (.ok u, s') ↔ _
  simp only [Prod.mk.injEq, true_and, eq_comm]

theorem gives_modifyGet {f : σ → α × σ} {a : α} {s s' : σ} :
    (modifyGet f : StateStep σ α).Gives s a s' ↔ f s = (a, s') := by
  change ((Except.ok (f s).1, (f s).2) : Except Failure α × σ) = (.ok a, s') ↔ _
  simp only [Except.ok.injEq, Prod.ext_iff]

theorem gives_mapM_nil {f : α → StateStep σ β} {ys : List β} {s s' : σ} :
    (([] : List α).mapM f).Gives s ys s' ↔ ys = [] ∧ s' = s := by
  rw [List.mapM_nil, gives_pure]

/-- A traversal gives the result of the first step and goes on from the state that it leaves. -/
theorem gives_mapM_cons {f : α → StateStep σ β} {x : α} {xs : List α} {ys : List β} {s s' : σ} :
    ((x :: xs).mapM f).Gives s ys s' ↔
      ∃ y t zs, (f x).Gives s y t ∧ (xs.mapM f).Gives t zs s' ∧ ys = y :: zs := by
  rw [List.mapM_cons, gives_bind]
  constructor
  · rintro ⟨y, t, hx, h⟩
    obtain ⟨zs, t', hxs, h⟩ := gives_bind.mp h
    obtain ⟨rfl, rfl⟩ := gives_pure.mp h
    exact ⟨y, t, zs, hx, hxs, rfl⟩
  · rintro ⟨y, t, zs, hx, hxs, rfl⟩
    exact ⟨y, t, hx, gives_bind.mpr ⟨zs, s', hxs, gives_pure.mpr ⟨rfl, rfl⟩⟩⟩

theorem gives_mapM_singleton {f : α → StateStep σ β} {x : α} {y : β} {s t : σ}
    (h : (f x).Gives s y t) : ([x].mapM f).Gives s [y] t :=
  gives_mapM_cons.mpr ⟨y, t, [], h, gives_mapM_nil.mpr ⟨rfl, rfl⟩, rfl⟩

/-- The traversal of two members. -/
theorem gives_mapM_pair {f : α → StateStep σ β} {x x' : α} {y y' : β} {s t u : σ}
    (h : (f x).Gives s y t) (h' : (f x').Gives t y' u) : ([x, x'].mapM f).Gives s [y, y'] u :=
  gives_mapM_cons.mpr ⟨y, t, [y'], h, gives_mapM_singleton h', rfl⟩

/-- If every step keeps an invariant of the state and relates its argument to its result, then so
does the traversal of a list. -/
theorem Gives.mapM {f : α → StateStep σ β} {xs : List α} {ys : List β} {s s' : σ}
    {I : σ → Prop} {R : α → β → Prop}
    (hstep : ∀ x ∈ xs, ∀ t y t', I t → (f x).Gives t y t' → R x y ∧ I t')
    (hs : I s) (h : (xs.mapM f).Gives s ys s') : List.Forall₂ R xs ys ∧ I s' := by
  induction xs generalizing ys s with
  | nil =>
    obtain ⟨rfl, rfl⟩ := gives_mapM_nil.mp h
    exact ⟨.nil, hs⟩
  | cons x xs ih =>
    obtain ⟨y, t, ys', hx, hxs, rfl⟩ := gives_mapM_cons.mp h
    obtain ⟨hR, ht⟩ := hstep x List.mem_cons_self s y t hs hx
    obtain ⟨hRs, ht'⟩ := ih (fun x hx => hstep x (List.mem_cons_of_mem _ hx)) ht hxs
    exact ⟨.cons hR hRs, ht'⟩

/-- If the state grows with every step, and what is known of a result stays so as the state grows, then
all results of a traversal can be told of in the state that it ends in. -/
theorem Gives.mapM_grow {f : α → StateStep σ β} {xs : List α} {ys : List β} {s s' : σ}
    {I : σ → Prop} {L : σ → σ → Prop} {R : σ → α → β → Prop} (hrefl : ∀ t, L t t)
    (htrans : ∀ t u v, L t u → L u v → L t v)
    (hmono : ∀ t t' x y, L t t' → R t x y → R t' x y)
    (hstep : ∀ x ∈ xs, ∀ t y t', I t → (f x).Gives t y t' → R t' x y ∧ I t' ∧ L t t')
    (hs : I s) (h : (xs.mapM f).Gives s ys s') :
    List.Forall₂ (R s') xs ys ∧ I s' ∧ L s s' := by
  induction xs generalizing ys s with
  | nil =>
    obtain ⟨rfl, rfl⟩ := gives_mapM_nil.mp h
    exact ⟨.nil, hs, hrefl _⟩
  | cons x xs ih =>
    obtain ⟨y, t, ys', hx, hxs, rfl⟩ := gives_mapM_cons.mp h
    obtain ⟨hR, ht, hle⟩ := hstep x List.mem_cons_self s y t hs hx
    obtain ⟨hRs, ht', hle'⟩ := ih (fun x hx => hstep x (List.mem_cons_of_mem _ hx)) ht hxs
    exact ⟨.cons (hmono _ _ _ _ hle' hR) hRs, ht', htrans _ _ _ hle hle'⟩

/-- A traversal relates arguments to results as its steps do. -/
theorem Gives.forall₂ {f : α → StateStep σ β} {xs : List α} {ys : List β} {s s' : σ}
    (R : α → β → Prop) (h : (xs.mapM f).Gives s ys s')
    (hstep : ∀ x ∈ xs, ∀ t y t', (f x).Gives t y t' → R x y) : List.Forall₂ R xs ys :=
  (mapM (I := fun _ => True) (fun x hx t y t' _ hy => ⟨hstep x hx t y t' hy, trivial⟩)
    trivial h).1

/-- If every step succeeds and keeps an invariant of the state, then so does the traversal. -/
theorem exists_gives_mapM {f : α → StateStep σ β} {xs : List α} {s : σ} {I : σ → Prop}
    {R : α → β → Prop} (hstep : ∀ x ∈ xs, ∀ t, I t → ∃ y t', (f x).Gives t y t' ∧ R x y ∧ I t')
    (hs : I s) : ∃ ys s', (xs.mapM f).Gives s ys s' ∧ List.Forall₂ R xs ys ∧ I s' := by
  induction xs generalizing s with
  | nil => exact ⟨[], s, gives_mapM_nil.mpr ⟨rfl, rfl⟩, .nil, hs⟩
  | cons x xs ih =>
    obtain ⟨y, t, hy, hR, ht⟩ := hstep x List.mem_cons_self s hs
    obtain ⟨ys, t', hys, hRs, ht'⟩ := ih (fun x hx => hstep x (List.mem_cons_of_mem _ hx)) ht
    exact ⟨y :: ys, t', gives_mapM_cons.mpr ⟨y, t, ys, hy, hys, rfl⟩, .cons hR hRs, ht'⟩

/-- The case of steps whose results are known. -/
theorem exists_gives_mapM_map {f : α → StateStep σ β} (g : α → β) {xs : List α} {s : σ}
    {I : σ → Prop} (hstep : ∀ x ∈ xs, ∀ t, I t → ∃ t', (f x).Gives t (g x) t' ∧ I t') (hs : I s) :
    ∃ s', (xs.mapM f).Gives s (xs.map g) s' ∧ I s' := by
  obtain ⟨ys, s', hgives, hys, hs'⟩ := exists_gives_mapM (R := fun x y => g x = y)
    (fun x hx t ht =>
      have ⟨t', hx', ht'⟩ := hstep x hx t ht
      ⟨g x, t', hx', rfl, ht'⟩) hs
  rw [← List.forall₂_map_left_iff (f := g), List.forall₂_eq_eq_eq] at hys
  exact ⟨s', hys ▸ hgives, hs'⟩

end StateStep

end QueryLowering
