import QueryLowering.Proofs.Invocations
import QueryLowering.Proofs.Settled.DatabaseFunction
import QueryLowering.Proofs.Settled.Navigation

/-!
Lowering a query again. A tree is settled for a pass if the pass finds nothing to do in it, and the
passes give back exactly the trees that are settled for them. A lowered query that is settled for
all passes is lowered to itself; but there are lowered queries that are not.
-/

namespace QueryLowering

open QueryLowering.Expr StateStep

namespace Pass

variable {ctx : Context} {e : Expr}

theorem Markers.gives_strip (h : e.Everywhere fun n => n.marker? = none) (t : Metadata) :
    (strip e).Gives t e t := by
  induction e using childInduction with
  | step e ih =>
    have hchild : ∀ c ∈ e.children, ∀ u, u = t → ∃ u', (strip c).Gives u c u' ∧ u' = t := by
      rintro c hc u rfl
      exact ⟨u, ih c hc (h.child hc), rfl⟩
    obtain ⟨u, hu, rfl⟩ := exists_gives_traverse (I := (· = t)) hchild rfl
    cases e with
    | call m receiver args type =>
      rw [strip_call h.root]
      exact hu
    | _ =>
      rw [strip_eq_traverse (by simp [kindName])]
      exact hu

theorem Inlining.inline_eq_self {budget : Nat} (h : e.Everywhere fun n => n.isInvoke = false) :
    inline budget e = .ok e := by
  induction e using childInduction with
  | step e ih =>
    rw [inline_eq_traverse h.root, traverse_eq, map_eq_ok]
    refine ⟨e.children, mapM_eq_ok.mpr ?_, setChildren_children e⟩
    exact List.forall₂_same.mpr fun c hc => ih c hc (h.child hc)

/-- The pass finds nothing to do in the tree. -/
def Settled (ctx : Context) : Pass → Expr → Prop
  | promotion, e => Promotion.rule.Settled e
  | markers, e => e.Everywhere fun n => n.marker? = none
  | inlining, e => e.Everywhere fun n => n.isInvoke = false
  | membership, e => Membership.rule.Settled e
  | groupJoin, e => GroupJoin.rule.Settled e
  | nullGuard, e => NullGuard.Settled ctx.model [] none e
  | keyComparison, e => (KeyComparison.rule ctx.model).Settled e
  | memberPushdown, e => MemberPushdown.rule.Settled e
  | navigation, e => Navigation.Settled ctx.model [] (fun _ => false) e
  | databaseFunction, e => DatabaseFunction.Settled ctx.catalog e

/-- What a pass gives back is settled for it. -/
theorem settled_of_gives {p : Pass} {s s' : State} (h : (p.run ctx e).Gives s e s') :
    p.Settled ctx e := by
  cases p with
  | promotion =>
    exact (Rule.settled_iff_of_method? fun _ _ => Promotion.method?_rule).mpr (gives_ofExcept.mp h).1
  | markers =>
    rw [run] at h
    obtain ⟨t, ht, -⟩ := gives_zoom.mp h
    -- Stripping leaves no marker, so what it gives back had none.
    have htrivial : e.Everywhere fun _ => True := fun _ _ => trivial
    exact (Markers.everywhere_strip (fun _ _ _ => trivial) htrivial ht).mono fun n hn => hn.2
  | inlining => exact not_isInvoke_run_inlining h
  | membership =>
    exact (Rule.settled_iff_of_method? fun _ _ => Membership.method?_rule).mpr
      (gives_ofExcept.mp h).1
  | groupJoin =>
    exact (Rule.settled_iff_of_method? fun _ _ => GroupJoin.method?_rule).mpr (gives_ofExcept.mp h).1
  | nullGuard => exact NullGuard.settled_iff.mpr (gives_pure.mp h).1.symm
  | keyComparison => exact KeyComparison.settled_iff.mpr (gives_ofExcept.mp h).1
  | memberPushdown =>
    exact (Rule.settled_iff_of_method? fun _ _ => MemberPushdown.method?_rule).mpr
      (gives_ofExcept.mp h).1
  | navigation =>
    obtain ⟨key, x, hx, -, -⟩ := Navigation.gives_run.mp h
    exact Navigation.settled_of_expands ⟨_, key, x, hx⟩
  | databaseFunction => exact DatabaseFunction.settled_of_gives h

/-- A pass gives back what is settled for it, whatever the state, and records nothing. -/
theorem Settled.exists_gives {p : Pass} (h : p.Settled ctx e) (s : State) :
    ∃ s', (p.run ctx e).Gives s e s' ∧ s'.metadata = s.metadata := by
  cases p with
  | promotion | membership | groupJoin | keyComparison | memberPushdown =>
    exact ⟨s, gives_ofExcept.mpr ⟨Rule.Settled.bottomUp_eq_self h, rfl⟩, rfl⟩
  | markers =>
    refine ⟨s, ?_, rfl⟩
    rw [run]
    exact gives_zoom.mpr ⟨s.metadata, Markers.gives_strip h s.metadata, rfl⟩
  | inlining => exact ⟨s, gives_ofExcept.mpr ⟨Inlining.inline_eq_self h, rfl⟩, rfl⟩
  | nullGuard => exact ⟨s, gives_pure.mpr ⟨(NullGuard.settled_iff.mp h).symm, rfl⟩, rfl⟩
  | navigation =>
    have hidle : Navigation.Idle s.metadata { state := s } := ⟨rfl, rfl⟩
    obtain ⟨key, x, hx, hpending, hmetadata⟩ :=
      Navigation.Settled.exists_gives [] (fun _ => none) h hidle
    exact ⟨x.state, Navigation.gives_run.mpr ⟨key, x, hx, hpending, rfl⟩, hmetadata⟩
  | databaseFunction => exact ⟨s, DatabaseFunction.Settled.gives h .rows s, rfl⟩

theorem series_eq_replicate_cons {p : Pass} {ps : List Pass} {s : State} :
    (series ctx (p :: ps) e s).1 = List.replicate (p :: ps).length e ↔
      ∃ t, (p.run ctx e).Gives s e t ∧ (series ctx ps e t).1 = List.replicate ps.length e := by
  unfold Gives
  rw [series, List.length_cons, List.replicate_succ]
  rcases (p.run ctx e).run.run s with ⟨f | r, t⟩
  · constructor
    · nofun
    · rintro ⟨t', h, -⟩
      cases h
  · constructor
    · intro h
      obtain ⟨rfl, hrest⟩ := List.cons.inj h
      exact ⟨t, rfl, hrest⟩
    · rintro ⟨t', h, hrest⟩
      cases h
      exact congrArg (List.cons e) hrest

/-- Every pass of a series gives back a tree exactly if the tree is settled for all of them. -/
theorem series_eq_replicate_iff {ps : List Pass} {s : State} :
    (series ctx ps e s).1 = List.replicate ps.length e ↔ ∀ p ∈ ps, p.Settled ctx e := by
  induction ps generalizing s with
  | nil => simp [series]
  | cons p ps ih =>
    rw [series_eq_replicate_cons, List.forall_mem_cons]
    constructor
    · rintro ⟨t, hp, hps⟩
      exact ⟨settled_of_gives hp, ih.mp hps⟩
    · rintro ⟨hp, hps⟩
      obtain ⟨t, ht, -⟩ := hp.exists_gives s
      exact ⟨t, ht, ih.mpr hps⟩

theorem exists_gives_runAll {ps : List Pass} (h : ∀ p ∈ ps, p.Settled ctx e) (s : State) :
    ∃ s', (runAll ctx ps e).Gives s e s' ∧ s'.metadata = s.metadata := by
  induction ps generalizing s with
  | nil => exact ⟨s, gives_runAll_nil.mpr ⟨rfl, rfl⟩, rfl⟩
  | cons p ps ih =>
    obtain ⟨hp, hps⟩ := List.forall_mem_cons.mp h
    obtain ⟨t, ht, hmetadata⟩ := hp.exists_gives s
    obtain ⟨t', ht', hmetadata'⟩ := ih hps t
    exact ⟨t', gives_runAll_cons.mpr ⟨e, t, ht, ht'⟩, hmetadata'.trans hmetadata⟩

end Pass

/-- When a lowered query is lowered again, every pass gives it back exactly if it is settled for all
passes; inlining, which has nothing to do in a lowered query, does not matter. If they all do, the
query is lowered to itself. -/
theorem lowered_given_back_iff_settled {ctx : Context} {e : Expr} {l : Lowered}
    (h : lower ctx e = .ok l) :
    ((Pass.series ctx Pass.all l.expr .fresh).1 = List.replicate Pass.all.length l.expr ↔
        ∀ p ∈ Pass.all, p ≠ .inlining → p.Settled ctx l.expr) ∧
      ((∀ p ∈ Pass.all, p ≠ .inlining → p.Settled ctx l.expr) →
        lower ctx l.expr = .ok ⟨l.expr, {}⟩) := by
  -- A lowered query has no invocation in it, so inlining is always settled.
  have hinlining : Pass.inlining.Settled ctx l.expr := not_isInvoke_of_lower h
  have hall : (∀ p ∈ Pass.all, p ≠ .inlining → p.Settled ctx l.expr) ↔
      ∀ p ∈ Pass.all, p.Settled ctx l.expr := by
    refine forall₂_congr fun p _ => ⟨fun hp => ?_, fun hp _ => hp⟩
    by_cases hne : p = .inlining
    · exact hne ▸ hinlining
    · exact hp hne
  refine ⟨Pass.series_eq_replicate_iff.trans hall.symm, fun hsettled => ?_⟩
  obtain ⟨s, hs, hmetadata⟩ := Pass.exists_gives_runAll (hall.mp hsettled) .fresh
  exact lower_eq_ok.mpr ⟨s, hs, hmetadata⟩

/-- The orders of customers called Ruth. -/
def ordersOfRuth : Expr :=
  let o : Param := ⟨"o", .entity "Order"⟩
  let customer := Expr.member (.param o) "Customer" (.entity "Customer")
  .call ⟨"Queryable", "Where", []⟩ none
    [.entitySet "Order", .quote (.lambda [o]
      (.binary .eq (.member customer "Name" .utf8) (.literal (.utf8 "Ruth"))))]
    (.queryable (.entity "Order"))

/-- The same with a join in place of the navigation. -/
def ordersJoinedToRuth : Expr :=
  let r : Param := ⟨"r", .entity "Order"⟩
  let i : Param := ⟨"i", .entity "Customer"⟩
  .call ⟨"Queryable", "Where", []⟩ none
    [.navigationJoin ⟨⟨0⟩, "Customer", .inner⟩ (.entitySet "Order")
      (.baseTable ⟨0⟩ none "customers" "Customer")
      (.lambda [r] (.member (.param r) "CustomerId" .int32))
      (.lambda [i] (.member (.param i) "Id" .int32)),
     .quote (.lambda [⟨"o", .entity "Order"⟩]
      (.binary .eq (.member (.sourceRef ⟨0⟩ "Customer") "Name" .utf8) (.literal (.utf8 "Ruth"))))]
    (.queryable (.entity "Order"))

theorem lower_ordersJoinedToRuth :
    lower ⟨Sample.model, Sample.catalog⟩ ordersOfRuth = .ok ⟨ordersJoinedToRuth, {}⟩ ∧
      (∀ p ∈ Pass.all, p ≠ .inlining →
        p.Settled ⟨Sample.model, Sample.catalog⟩ ordersJoinedToRuth) ∧
      lower ⟨Sample.model, Sample.catalog⟩ ordersJoinedToRuth = .ok ⟨ordersJoinedToRuth, {}⟩ := by
  have h : lower ⟨Sample.model, Sample.catalog⟩ ordersOfRuth = .ok ⟨ordersJoinedToRuth, {}⟩ := by
    cbv
  have hsettled := (lowered_given_back_iff_settled h).1.mp (by cbv)
  exact ⟨h, hsettled, (lowered_given_back_iff_settled h).2 hsettled⟩

/-- A count of orders in memory. -/
def countInMemory : Expr :=
  .call ⟨"Enumerable", "Count", [.entity "Order"]⟩ none [.entitySet "Order"] .int32

/-- A count of orders in the database. -/
def countDeferred : Expr :=
  .call ⟨"Queryable", "Count", [.entity "Order"]⟩ none [.entitySet "Order"] .int32

/-- A query that is lowered to another query when it is lowered again: promotion is not settled for
what inlining brings in after it. -/
theorem lower_again_countInMemory :
    lower ⟨Sample.model, Sample.catalog⟩ (.apply (.delegate "count" (.lambda [] countInMemory)) []) =
        .ok ⟨countInMemory, {}⟩ ∧
      lower ⟨Sample.model, Sample.catalog⟩ countInMemory = .ok ⟨countDeferred, {}⟩ ∧
      countDeferred ≠ countInMemory := by
  refine ⟨by cbv, by cbv, by decide⟩

end QueryLowering
