import QueryLowering.Pipeline
import QueryLowering.Proofs.Steps

/-!
A query is lowered exactly if its passes succeed one after the other, each on what the one before
has made of the tree and in the state that it has left.
-/

namespace QueryLowering

open StateStep

theorem StateStep.gives_zoom {σ τ α : Type} {get : σ → τ} {set : τ → σ → σ} {step : StateStep τ α}
    {s s' : σ} {a : α} :
    (step.zoom get set).Gives s a s' ↔ ∃ t, step.Gives (get s) a t ∧ s' = set t s := by
  have hrun : (step.zoom get set).run.run s =
      ((step.run.run (get s)).1, set (step.run.run (get s)).2 s) := rfl
  unfold Gives
  rw [hrun]
  rcases step.run.run (get s) with ⟨result, t⟩
  constructor
  · intro h
    cases h
    exact ⟨t, rfl, rfl⟩
  · rintro ⟨t', h, rfl⟩
    cases h
    rfl

namespace Pass

variable {ctx : Context} {e e' : Expr} {s s' : State}

theorem Navigation.run_run (model : Model) (e : Expr) (s : State) :
    (Navigation.run model e).run.run s =
      match (expand model [] (fun _ => none) e).run.run { state := s } with
      | (.error f, x) => (.error f, x.state)
      | (.ok (e, _), x) =>
        match x.pending with
        | [] => (.ok e, x.state)
        | j :: _ =>
          (.error (((Failure.internalError
            "Navigation join was never attached to a row source").withField
              "alias" j.label.row.text).withField "navigation" j.label.navigation), x.state) := rfl

/-- Navigations are expanded if the expansion succeeds and leaves no join over. -/
theorem Navigation.gives_run {model : Model} :
    (Navigation.run model e).Gives s e' s' ↔
      ∃ key x, (expand model [] (fun _ => none) e).Gives { state := s } (e', key) x ∧
        x.pending = [] ∧ x.state = s' := by
  unfold Gives
  rw [run_run]
  rcases (expand model [] (fun _ => none) e).run.run { state := s } with ⟨f | ⟨r, key⟩, x⟩
  · constructor
    · intro h
      cases h
    · rintro ⟨key, y, h, -⟩
      cases h
  · constructor
    · intro h
      dsimp only at h
      split at h
      · rename_i hpending
        cases h
        exact ⟨key, x, rfl, hpending, rfl⟩
      · cases h
    · rintro ⟨key', y, h, hpending, rfl⟩
      cases h
      dsimp only
      rw [hpending]

theorem run_runNamed (p : Pass) (ctx : Context) (e : Expr) (s : State) :
    (p.runNamed ctx e).run.run s =
      match (p.run ctx e).run.run s with
      | (.ok e', s') => (.ok e', s')
      | (.error f, s') => (.error (f.withFieldIfAbsent Failure.passField p.name), s') := rfl

theorem gives_runNamed {p : Pass} :
    (p.runNamed ctx e).Gives s e' s' ↔ (p.run ctx e).Gives s e' s' := by
  unfold Gives
  rw [run_runNamed]
  rcases (p.run ctx e).run.run s with ⟨f | r, t⟩
  · constructor <;> intro h <;> cases h
  · rfl

theorem gives_runAll_nil : (runAll ctx [] e).Gives s e' s' ↔ e' = e ∧ s' = s := gives_pure

theorem gives_runAll_cons {p : Pass} {ps : List Pass} :
    (runAll ctx (p :: ps) e).Gives s e' s' ↔
      ∃ r t, (p.run ctx e).Gives s r t ∧ (runAll ctx ps r).Gives t e' s' := by
  rw [runAll, gives_bind]
  simp only [gives_runNamed]

theorem gives_runAll_append {ps qs : List Pass} :
    (runAll ctx (ps ++ qs) e).Gives s e' s' ↔
      ∃ r t, (runAll ctx ps e).Gives s r t ∧ (runAll ctx qs r).Gives t e' s' := by
  induction ps generalizing e s with
  | nil =>
    simp only [List.nil_append, gives_runAll_nil]
    constructor
    · intro h
      exact ⟨e, s, ⟨rfl, rfl⟩, h⟩
    · rintro ⟨r, t, ⟨rfl, rfl⟩, h⟩
      exact h
  | cons p ps ih =>
    simp only [List.cons_append, gives_runAll_cons, ih]
    constructor
    · rintro ⟨r, t, hp, r', t', hps, hqs⟩
      exact ⟨r', t', ⟨r, t, hp, hps⟩, hqs⟩
    · rintro ⟨r', t', ⟨r, t, hp, hps⟩, hqs⟩
      exact ⟨r, t, hp, r', t', hps, hqs⟩

end Pass

theorem lower_eq_ok {ctx : Context} {e : Expr} {l : Lowered} :
    lower ctx e = .ok l ↔
      ∃ s, (Pass.runAll ctx Pass.all e).Gives .fresh l.expr s ∧ s.metadata = l.metadata := by
  unfold lower Gives
  rcases (Pass.runAll ctx Pass.all e).run.run State.fresh with ⟨f | r, t⟩
  · constructor
    · intro h
      cases h
    · rintro ⟨s, h, -⟩
      cases h
  · constructor
    · intro h
      cases h
      exact ⟨t, rfl, rfl⟩
    · rintro ⟨s, h, hmetadata⟩
      cases h
      cases l
      cases hmetadata
      rfl

end QueryLowering
