import QueryLowering.Proofs.Settled.Rules

/-!
Trees without a call that the catalog resolves.
-/

namespace QueryLowering.Pass.DatabaseFunction

open QueryLowering.Expr StateStep

variable {catalog : Catalog} {position : Position} {e r : Expr} {s s' : State}

/-- The node calls no method of the catalog, and if it calls an operator, then without a receiver. -/
def SettledNode (catalog : Catalog) : Expr → Prop
  | .call m receiver args _ =>
    catalog.find? m = none ∧ ((Operator.findFor? m args).isSome = true → receiver = none)
  | _ => True

def Settled (catalog : Catalog) (e : Expr) : Prop := e.Everywhere (SettledNode catalog)

theorem method?_resolveCall {set : FunctionSet} {args : List Expr} {node : Expr}
    (h : (resolveCall set position args node).Gives s r s') : r.method? = none := by
  unfold resolveCall at h
  obtain ⟨f, t, -, h⟩ := gives_bind.mp h
  split at h
  · rw [(gives_pure.mp h).1]
    rfl
  · split at h
    · obtain ⟨a, t', -, h⟩ := gives_bind.mp h
      rw [(gives_pure.mp h).1]
      rfl
    · exact absurd h not_gives_throw

/-- What a resolution gives back is settled. -/
theorem settled_of_gives (h : (resolve catalog position e).Gives s e s') : Settled catalog e := by
  induction e using childInduction generalizing position s s' with
  | step e ih =>
    have hnode : SettledNode catalog e →
        (∀ c ∈ e.children, ∃ position t t', (resolve catalog position c).Gives t c t') →
        Settled catalog e := by
      intro hroot hchildren
      refine everywhere_iff.mpr ⟨hroot, fun c hc => ?_⟩
      obtain ⟨position, t, t', hc'⟩ := hchildren c hc
      exact ih c hc hc'
    cases e with
    | call m receiver args type =>
      cases hset : catalog.find? m with
      | some set =>
        -- A call of a catalog method never comes back as a call.
        rw [resolve_function hset] at h
        obtain ⟨args', t, -, h⟩ := gives_bind.mp h
        cases method?_resolveCall h
      | none =>
        cases hop : (Operator.findFor? m args).isSome with
        | true =>
          rw [resolve_operator hset hop] at h
          obtain ⟨args', t, hargs', h⟩ := gives_bind.mp h
          have hargs := hargs'.forall₂ (fun a b => ∃ position t t',
            (resolve catalog position a.1).Gives t b t') fun a _ t b t' hb => ⟨_, t, t', hb⟩
          obtain ⟨hlen, hrebuilt⟩ := withChildren_eq_ok.mp (gives_ofExcept.mp h).1
          -- A receiver would be one child more than there are arguments.
          have hreceiver : receiver = none := by
            have hlen' := hargs.length_eq.trans hlen
            simpa [children] using hlen'
          subst hreceiver
          cases eq_children_of_setChildren_eq hlen hrebuilt.symm
          refine hnode ⟨hset, fun _ => rfl⟩ fun c hc => ?_
          obtain ⟨i, hi⟩ := exists_mem_zipIdx hc
          exact forall_mem_zipIdx_of_forall₂ hargs (c, i) hi
        | false =>
          rw [resolve_call hset hop] at h
          exact hnode ⟨hset, by simp [hop]⟩ fun c hc =>
            ⟨.value, exists_gives_child_of_traverse h c hc⟩
    | quote inner =>
      rw [resolve, gives_map] at h
      obtain ⟨inner', hinner, heq⟩ := h
      cases heq
      exact hnode trivial (by simpa [children] using ⟨_, _, _, hinner⟩)
    | lambda params body =>
      rw [resolve, gives_map] at h
      obtain ⟨body', hbody, heq⟩ := h
      cases heq
      exact hnode trivial (by simpa [children] using ⟨_, _, _, hbody⟩)
    | _ =>
      rw [resolve] at h
      · refine hnode trivial fun c hc => ?_
        obtain ⟨i, hi⟩ := exists_gives_child_of_traverseIdx h c hc
        exact ⟨_, hi⟩
      all_goals
        intros
        contradiction

/-- A settled tree is given back. -/
theorem Settled.gives (h : Settled catalog e) (position : Position) (s : State) :
    (resolve catalog position e).Gives s e s := by
  induction e using childInduction generalizing position with
  | step e ih =>
    have hchild : ∀ position, ∀ c ∈ e.children, ∀ t, t = s →
        ∃ t', (resolve catalog position c).Gives t c t' ∧ t' = s := by
      rintro position c hc t rfl
      exact ⟨t, ih c hc (h.child hc) position, rfl⟩
    cases e with
    | call m receiver args type =>
      obtain ⟨hset, hreceiver⟩ := h.root
      cases hop : (Operator.findFor? m args).isSome with
      | true =>
        cases hreceiver hop
        obtain ⟨t, hargs, rfl⟩ := exists_gives_mapM_map (I := (· = s))
          (f := fun a => resolve catalog (argPosition m.name a.2 a.1) a.1) Prod.fst
          (fun a ha => hchild _ a.1 (List.fst_mem_of_mem_zipIdx ha)) rfl
        rw [List.zipIdx_map_fst] at hargs
        rw [resolve_operator hset hop]
        exact gives_bind.mpr ⟨args, t, hargs,
          gives_ofExcept.mpr ⟨withChildren_eq_ok.mpr ⟨rfl, rfl⟩, rfl⟩⟩
      | false =>
        obtain ⟨t, ht, rfl⟩ := exists_gives_traverse (I := (· = s)) (hchild .value) rfl
        rw [resolve_call hset hop]
        exact ht
    | quote inner =>
      rw [resolve, gives_map]
      exact ⟨inner, ih inner (by simp [children]) (h.child (by simp [children])) _, rfl⟩
    | lambda params body =>
      rw [resolve, gives_map]
      exact ⟨body, ih body (by simp [children]) (h.child (by simp [children])) _, rfl⟩
    | _ =>
      obtain ⟨t, ht, rfl⟩ := exists_gives_traverseIdx (I := (· = s))
        (fun i => hchild (childPosition _ i)) rfl
      rw [resolve]
      · exact ht
      all_goals
        intros
        contradiction

end QueryLowering.Pass.DatabaseFunction
