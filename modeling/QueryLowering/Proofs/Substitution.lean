import QueryLowering.Proofs.Flattening

/-!
Laws of substitution. After a substitution an expression refers to what it referred to before, unless it
is bound, and to what the bindings bring in for the parameters that it refers to; nothing foreign comes
in. Bindings can be put in one after the other as long as none of them brings in a parameter that is
bound later. A parameter is bound by name and type but hidden by its name alone, so bindings may share
names, and of the bindings of one parameter the first counts.
-/

namespace QueryLowering.Expr

variable {σ : Bindings} {e r : Expr} {p y : Param}

/-- After a substitution an expression refers to `y` either as before, where `y` is not bound, or because
something that refers to `y` was put for a parameter at a place where no lambda captures `y`. -/
theorem references_subst_iff_kept_or_put :
    references y (subst σ e) = true ↔ references y e = true ∧ σ.lookup y = none ∨
      ∃ p r, σ.lookup p = some r ∧ exposes p y e = true ∧ references y r = true := by
  rw [references_subst_iff]
  constructor
  · rintro ⟨q, hexposes, hreferences⟩
    cases hq : σ.lookup q with
    | none =>
      -- What is not bound stands for itself, so it is `y`.
      rw [hq, Option.getD_none, references_param, beq_iff_eq] at hreferences
      subst hreferences
      exact .inl ⟨references_of_exposes hexposes, hq⟩
    | some r =>
      rw [hq, Option.getD_some] at hreferences
      exact .inr ⟨q, r, hq, hexposes, hreferences⟩
  · rintro (⟨hreferences, hy⟩ | ⟨q, r, hq, hexposes, hreferences⟩)
    · refine ⟨y, ?_, ?_⟩
      · rw [exposes_self, hreferences]
      · rw [hy, Option.getD_none, references_param, beq_self_eq_true]
    · refine ⟨q, hexposes, ?_⟩
      rw [hq, Option.getD_some, hreferences]

/-- Nothing happens to an expression that refers to none of the parameters that are bound. -/
theorem subst_eq_self_of_unbound (h : ∀ b ∈ σ, references b.1 e = false) : subst σ e = e := by
  refine subst_eq_self_iff.mpr fun q hq => ?_
  have hlookup : σ.lookup q = none := by
    refine List.lookup_eq_none_iff.mpr fun b hb => bne_iff_ne.mpr ?_
    rintro rfl
    cases (h b hb).symm.trans hq
  rw [hlookup, Option.getD_none]

/-- An expression refers after a substitution to the parameters that it referred to and that are not
bound, and to those that a binding brings in for a parameter that it referred to; of the latter only
those are missing that a lambda captures at every place. If the expression refers to nothing that is
bound, then it stays as it is. -/
theorem substitution_brings_in_nothing_foreign (σ : Bindings) (e : Expr) :
    (∀ q, references q (subst σ e) = true ↔ references q e = true ∧ σ.lookup q = none ∨
      ∃ p r, σ.lookup p = some r ∧ references p e = true ∧ references q r = true ∧
        exposes p q e = true) ∧
    ((∀ b ∈ σ, references b.1 e = false) → subst σ e = e) := by
  refine ⟨fun q => ?_, subst_eq_self_of_unbound⟩
  rw [references_subst_iff_kept_or_put]
  refine or_congr_right (exists_congr fun p => exists_congr fun r => and_congr_right fun _ => ?_)
  constructor
  · rintro ⟨hexposes, hreferences⟩
    exact ⟨references_of_exposes hexposes, hreferences, hexposes⟩
  · rintro ⟨-, hreferences, hexposes⟩
    exact ⟨hexposes, hreferences⟩

/-- A binding of the hidden total and one of a limit of another type change nothing, while a binding
of the limit brings in what it refers to. -/
theorem substitution_in_aboveLimit :
    (∀ b ∈ ([(⟨"total", .int32⟩, .param ⟨"budget", .int32⟩),
        (⟨"limit", .utf8⟩, .param ⟨"budget", .int32⟩)] : Bindings),
      references b.1 aboveLimit = false) ∧
    subst [(⟨"total", .int32⟩, .param ⟨"budget", .int32⟩),
      (⟨"limit", .utf8⟩, .param ⟨"budget", .int32⟩)] aboveLimit = aboveLimit ∧
    references ⟨"limit", .int32⟩ aboveLimit = true ∧
    references ⟨"budget", .int32⟩
      (subst [(⟨"limit", .int32⟩, .param ⟨"budget", .int32⟩)] aboveLimit) = true := by
  have hunbound : ∀ b ∈ ([(⟨"total", .int32⟩, .param ⟨"budget", .int32⟩),
      (⟨"limit", .utf8⟩, .param ⟨"budget", .int32⟩)] : Bindings),
        references b.1 aboveLimit = false := by
    simp only [List.forall_mem_cons]
    exact ⟨by cbv, by cbv, List.forall_mem_nil _⟩
  have hlimit : references ⟨"limit", .int32⟩ aboveLimit = true := by cbv
  have hexposes : exposes ⟨"limit", .int32⟩ ⟨"budget", .int32⟩ aboveLimit = true := by cbv
  refine ⟨hunbound, (substitution_brings_in_nothing_foreign _ aboveLimit).2 hunbound, hlimit, ?_⟩
  refine ((substitution_brings_in_nothing_foreign _ aboveLimit).1 _).mpr (.inr ?_)
  exact ⟨⟨"limit", .int32⟩, .param ⟨"budget", .int32⟩, by simp, hlimit, by simp, hexposes⟩

theorem visible_cons (b : Param × Expr) (σ : Bindings) (params : List Param) :
    Bindings.visible (b :: σ) params =
      if hides params b.1.name then σ.visible params else b :: σ.visible params := by
  unfold Bindings.visible
  rw [List.filter_cons]
  cases hides params b.1.name <;> rfl

/-- Two substitutions go through a node that is neither a parameter nor a lambda. -/
theorem subst_subst_eq_setChildren (σ τ : Bindings) (hp : ∀ p, e ≠ param p)
    (hl : ∀ params body, e ≠ lambda params body) :
    subst σ (subst τ e) = e.setChildren (e.children.map fun c => subst σ (subst τ c)) := by
  rw [subst_eq_setChildren τ e hp hl, subst_setChildren σ hp hl (List.length_map _), List.map_map]
  rfl

/-- To put in the first binding on its own and then the others gives the same as to put in all at once
exactly if all that the first brings in, and that is not captured, stands for itself in the others. -/
theorem subst_cons_eq_iff :
    subst ((p, r) :: σ) e = subst σ (subst [(p, r)] e) ↔
      ∀ y, exposes p y e = true → references y r = true →
        (σ.lookup y).getD (param y) = param y := by
  induction e using scopeInduction generalizing σ with
  | hparam q =>
    rw [subst_param, subst_param, List.lookup_cons, List.lookup_cons]
    by_cases hq : q = p
    · -- What the first binding has put here is gone through once more by the others.
      subst hq
      simp only [beq_self_eq_true, Option.getD_some, exposes_param, forall_const]
      rw [eq_comm, subst_eq_self_iff]
    · simp [beq_false_of_ne hq]
  | hlambda params body ih =>
    rw [subst_lambda, subst_lambda, subst_lambda, lambda.injEq, visible_cons, visible_cons]
    simp only [true_and, exposes_lambda, Bool.and_eq_true, Bool.not_eq_true']
    cases hhides : hides params p.name with
    | true =>
      -- The first binding is hidden, so only the others are left on both sides.
      simp [Bindings.visible]
    | false =>
      have hnil : Bindings.visible [] params = [] := rfl
      simp only [Bool.false_eq_true, if_false, hnil, ih, value_visible, true_and]
      apply forall_congr'
      intro y
      cases hides params y.name <;> simp
  | hnode e hp hl ih =>
    rw [subst_eq_setChildren _ e hp hl, subst_subst_eq_setChildren _ _ hp hl, map_children_eq_iff]
    simp only [exposes_eq_any _ _ e hp hl, List.any_eq_true]
    constructor
    · rintro h y ⟨c, hc, hexposes⟩
      exact (ih c hc).mp (h c hc) y hexposes
    · intro h c hc
      exact (ih c hc).mpr fun y hexposes => h y ⟨c, hc, hexposes⟩

/-- If no binding brings in a parameter that is bound by a later one, then to put in all bindings at
once is to put in one after the other. -/
theorem subst_eq_one_after_the_other (σ : Bindings)
    (h : σ.Pairwise fun earlier later => references later.1 earlier.2 = false) (e : Expr) :
    subst σ e = σ.foldl (fun e b => subst [b] e) e := by
  induction σ generalizing e with
  | nil => rw [subst_nil, List.foldl_nil]
  | cons b σ ih =>
    obtain ⟨hb, hσ⟩ := List.pairwise_cons.mp h
    have hfirst : subst (b :: σ) e = subst σ (subst [b] e) := by
      refine subst_cons_eq_iff.mpr fun y _ hy => ?_
      exact subst_eq_self_iff.mp (subst_eq_self_of_unbound hb) y hy
    calc subst (b :: σ) e = subst σ (subst [b] e) := hfirst
      _ = σ.foldl (fun e b => subst [b] e) (subst [b] e) := ih hσ (subst [b] e)
      _ = (b :: σ).foldl (fun e b => subst [b] e) e := (List.foldl_cons ..).symm

/-- Bindings of two parameters called `limit`, the second of which brings in the first parameter and is
bound twice. -/
def limits : Bindings :=
  [(⟨"limit", .int32⟩, .param ⟨"budget", .int32⟩),
    (⟨"limit", .utf8⟩, .member (.param ⟨"limit", .int32⟩) "Text" .utf8),
    (⟨"limit", .utf8⟩, .param ⟨"note", .utf8⟩)]

/-- Both limits, above and below a lambda that hides the name. -/
def limitUses : Expr :=
  .object [("Above", aboveLimit), ("Text", .param ⟨"limit", .utf8⟩),
    ("Hidden", .lambda [⟨"limit", .float64⟩] (.param ⟨"limit", .int32⟩))]

/-- The text of the limit stays that of the limit, as its parameter comes in after it was bound. -/
theorem limits_one_after_the_other :
    (limits.Pairwise fun earlier later => references later.1 earlier.2 = false) ∧
      limits.foldl (fun e b => subst [b] e) limitUses =
        .object [("Above", .lambda [⟨"total", .int32⟩]
            (.binary .gt (.param ⟨"total", .int32⟩) (.param ⟨"budget", .int32⟩))),
          ("Text", .member (.param ⟨"limit", .int32⟩) "Text" .utf8),
          ("Hidden", .lambda [⟨"limit", .float64⟩] (.param ⟨"limit", .int32⟩))] := by
  have hmember : references ⟨"limit", .utf8⟩
      (.member (.param ⟨"limit", .int32⟩) "Text" .utf8) = false := by cbv
  have hpairwise : limits.Pairwise fun earlier later => references later.1 earlier.2 = false := by
    simp [limits, hmember]
  have hlimits : subst limits limitUses =
      .object [("Above", .lambda [⟨"total", .int32⟩]
          (.binary .gt (.param ⟨"total", .int32⟩) (.param ⟨"budget", .int32⟩))),
        ("Text", .member (.param ⟨"limit", .int32⟩) "Text" .utf8),
        ("Hidden", .lambda [⟨"limit", .float64⟩] (.param ⟨"limit", .int32⟩))] := by cbv
  exact ⟨hpairwise, (subst_eq_one_after_the_other limits hpairwise limitUses).symm.trans hlimits⟩

end QueryLowering.Expr
