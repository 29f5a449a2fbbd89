import QueryLowering.Proofs.Settled

/-!
Where the markers of a lowered query come from. Markers are taken out before invocations are inlined,
and the bodies of delegates are not part of the tree until then. So a marker in a lowered query has
stood in the body of a delegate, at whatever depth; and a body that no later pass changes comes out
as it is, with its markers in it and nothing recorded.
-/

namespace QueryLowering

namespace Expr

variable {k : Marker} {e : Expr}

/-- The marker is called in the tree or, at any depth, in the body of a delegate. -/
inductive Mentions (k : Marker) : Expr → Prop
  | here {e : Expr} : e.marker? = some k → Mentions k e
  | child {e c : Expr} : c ∈ e.children → Mentions k c → Mentions k e
  | body {name : String} {body : Expr} {type : DataType} :
      Mentions k body → Mentions k (const (.delegate name (some body)) type)

/-- The node is a delegate whose body mentions the marker. -/
def Conceals (k : Marker) (e : Expr) : Prop :=
  ∃ name body type, e = const (.delegate name (some body)) type ∧ body.Mentions k

/-- A tree that does not mention a marker is one that neither calls it nor conceals it. -/
theorem not_mentions_iff :
    ¬ e.Mentions k ↔ e.Everywhere fun n => ¬ n.Conceals k ∧ n.marker? ≠ some k := by
  constructor
  · intro h
    induction e using childInduction with
    | step e ih =>
      refine everywhere_iff.mpr ⟨⟨?_, fun hm => h (.here hm)⟩, fun c hc => ?_⟩
      · rintro ⟨name, body, type, rfl, hbody⟩
        exact h (.body hbody)
      · exact ih c hc fun hm => h (.child hc hm)
  · intro h hm
    induction hm with
    | here hm => exact h.root.2 hm
    | child hc _ ih => exact ih (h.child hc)
    | body hm _ => exact h.root.1 ⟨_, _, _, rfl, hm⟩

theorem delegateClosed_not_mentions :
    DelegateClosed fun n => ¬ n.Conceals k ∧ n.marker? ≠ some k := by
  intro name body type h
  exact not_mentions_iff.mp fun hm => h.1 ⟨name, body, type, rfl, hm⟩

theorem conceals_of_setChildren {cs : List Expr} (h : (e.setChildren cs).Conceals k) :
    e.Conceals k := by
  obtain ⟨name, body, type, heq, hbody⟩ := h
  have hkind : e.kindName = "Constant" := by
    rw [← kindName_setChildren e cs, heq]
    rfl
  cases e with
  | const value type' => exact ⟨name, body, type, heq, hbody⟩
  | _ => simp [kindName] at hkind

theorem persistent_not_conceals : Persistent fun n => ¬ n.Conceals k where
  setChildren e cs h := fun hcs => h (conceals_of_setChildren hcs)
  ordinary e h := by
    rintro ⟨name, body, type, rfl, -⟩
    cases h

theorem persistent_marker?_ne : Persistent fun n => n.marker? ≠ some k where
  setChildren e cs h := by rwa [marker?_setChildren]
  ordinary e h := by
    cases e with
    | call m receiver args type =>
      have hm : Marker.of? m = none := Option.isNone_iff_eq_none.mp h
      simp [marker?, method?, hm]
    | _ =>
      intro h
      cases h

end Expr

open QueryLowering.Expr StateStep

variable {ctx : Context}

/-- What no delegate conceals does not come out. The first two passes keep delegates as they are and
take out the markers that can be seen; what inlining then puts in has none. -/
theorem marker?_ne_of_lower {k : Marker} {e : Expr} {l : Lowered} (h : lower ctx e = .ok l)
    (he : e.Everywhere fun n => ¬ n.Conceals k) : l.expr.Everywhere fun n => n.marker? ≠ some k := by
  obtain ⟨e₁, e₂, e₃, s₁, s₂, s₃, s, hpromotion, hmarkers, hinlining, hafter⟩ :=
    exists_inlined_of_lower h
  -- No delegate of the tree conceals the marker, before and after it is taken out.
  have he₁ := Pass.everywhere_run persistent_not_conceals (by decide) he hpromotion
  have he₂ : e₂.Everywhere fun n => ¬ n.Conceals k ∧ n.marker? ≠ some k := by
    rw [Pass.run] at hmarkers
    obtain ⟨u, hu, -⟩ := gives_zoom.mp hmarkers
    refine (Pass.Markers.everywhere_strip persistent_not_conceals.setChildren he₁ hu).mono ?_
    exact fun n hn => ⟨hn.1, by simp [hn.2]⟩
  -- The two properties together hold in the bodies of delegates too, so inlining keeps them.
  have he₃ := Pass.everywhere_run_inlining
    (fun e cs hn => ⟨persistent_not_conceals.setChildren e cs hn.1,
      persistent_marker?_ne.setChildren e cs hn.2⟩) delegateClosed_not_mentions he₂ hinlining
  exact Pass.everywhere_runAll persistent_marker?_ne (by decide) (he₃.mono fun n hn => hn.1.2) hafter

/-- The invocation of a delegate that takes no arguments. -/
def invokeDelegate (name : String) (body : Expr) : Expr :=
  .apply (.delegate name (.lambda [] body)) []

theorem Pass.Inlining.inline_invokeDelegate {budget : Nat} (name : String) {body : Expr}
    (h : body.Everywhere fun n => n.isInvoke = false) :
    inline (budget + 1) (invokeDelegate name body) = .ok body := by
  unfold invokeDelegate Expr.apply Expr.delegate
  rw [inline]
  simp [knownLambda?, Expr.lambda?, inline_eq_self h]

theorem everywhere_invokeDelegate {Q : Expr → Prop} {name : String} {body : Expr}
    (hinvoke : Q (invokeDelegate name body)) (hdelegate : Q (.delegate name (.lambda [] body))) :
    (invokeDelegate name body).Everywhere Q := by
  refine everywhere_iff.mpr ⟨hinvoke, fun c hc => ?_⟩
  cases List.mem_singleton.mp hc
  exact everywhere_of_leaf rfl hdelegate

/-- A body that is settled for inlining and the later passes comes out of a delegate as it is: the
first two passes do not see it. -/
theorem lower_invokeDelegate (name : String) {body : Expr}
    (h : ∀ p ∈ Pass.inlining :: Pass.afterInlining, p.Settled ctx body) :
    lower ctx (invokeDelegate name body) = .ok ⟨body, {}⟩ := by
  obtain ⟨hinlining, hafter⟩ := List.forall_mem_cons.mp h
  -- To the first two passes the query is an invocation of a constant.
  have hfirst : ∀ p ∈ [Pass.promotion, Pass.markers], p.Settled ctx (invokeDelegate name body) := by
    refine List.forall_mem_cons.mpr ⟨?_, List.forall_mem_singleton.mpr ?_⟩
    · exact everywhere_invokeDelegate rfl rfl
    · exact everywhere_invokeDelegate rfl rfl
  obtain ⟨s₁, hs₁, hmetadata₁⟩ := Pass.exists_gives_runAll hfirst .fresh
  obtain ⟨s₂, hs₂, hmetadata₂⟩ := Pass.exists_gives_runAll hafter s₁
  refine lower_eq_ok.mpr ⟨s₂, ?_, hmetadata₂.trans hmetadata₁⟩
  rw [Pass.all_eq]
  refine Pass.gives_runAll_append.mpr ⟨_, s₁, hs₁, Pass.gives_runAll_cons.mpr ⟨body, s₁, ?_, hs₂⟩⟩
  exact gives_ofExcept.mpr ⟨Pass.Inlining.inline_invokeDelegate name hinlining, rfl⟩

/-- Markers of a lowered query come from bodies of delegates. If no delegate of a query has a body
that mentions a marker, the lowered query does not call the marker; but each body that inlining and
the later passes leave alone comes out of a delegate with its markers, and nothing is recorded. -/
theorem markers_of_lowered_come_from_delegates (ctx : Context) (k : Marker) :
    (∀ e l, lower ctx e = .ok l → (∀ n ∈ e.nodes, ¬ n.Conceals k) →
        ∀ n ∈ l.expr.nodes, n.marker? ≠ some k) ∧
      ∀ name body, (∀ p ∈ Pass.inlining :: Pass.afterInlining, p.Settled ctx body) →
        (∃ n ∈ body.nodes, n.marker? = some k) →
          ∃ l, lower ctx (invokeDelegate name body) = .ok l ∧
            (∃ n ∈ l.expr.nodes, n.marker? = some k) ∧ l.metadata = {} := by
  refine ⟨fun e l h he => marker?_ne_of_lower h he, fun name body hsettled hmarker => ?_⟩
  exact ⟨_, lower_invokeDelegate name hsettled, hmarker, rfl⟩

/-- All orders, to be tracked. -/
def trackedOrders : Expr :=
  .call ⟨"Queryable", "AsTracking", [.entity "Order"]⟩ none [.entitySet "Order"]
    (.queryable (.entity "Order"))

/-- The body of a delegate that tells large orders. -/
def isLargeOrder : Expr :=
  let o : Param := ⟨"o", .entity "Order"⟩
  .lambda [o] (.binary .gt (.member (.param o) "Total" .float64) (.literal (.int32 100)))

/-- The large orders of a query. -/
def largeOrders (orders : Expr) (isLarge : Expr) : Expr :=
  .call ⟨"Queryable", "Where", [.entity "Order"]⟩ none [orders, .quote isLarge]
    (.queryable (.entity "Order"))

/-- The same with the delegate. -/
def delegatedLargeOrders : Expr :=
  let o : Param := ⟨"o", .entity "Order"⟩
  largeOrders trackedOrders (.lambda [o] (.apply (.delegate "isLarge" isLargeOrder) [.param o]))

theorem not_conceals_delegatedLargeOrders :
    ∀ n ∈ delegatedLargeOrders.nodes, ¬ n.Conceals .asTracking := by
  have hbody : ¬ isLargeOrder.Mentions .asTracking := by
    refine not_mentions_iff.mpr fun n hn => ?_
    simp only [isLargeOrder, Expr.literal, nodes_eq, children, List.flatMap_cons, List.flatMap_nil,
      List.append_nil, List.cons_append, List.nil_append, List.mem_cons, List.not_mem_nil,
      or_false] at hn
    rcases hn with rfl | rfl | rfl | rfl | rfl <;> simp [Conceals, marker?, method?]
  intro n hn
  simp only [delegatedLargeOrders, largeOrders, trackedOrders, Expr.entitySet, Expr.apply,
    Expr.delegate, nodes_eq, children, Option.toList_none, List.nil_append, List.flatMap_cons,
    List.flatMap_nil, List.append_nil, List.cons_append, List.mem_cons, List.not_mem_nil,
    or_false] at hn
  rcases hn with rfl | rfl | rfl | rfl | rfl | rfl | rfl | rfl <;> simp [Conceals]
  exact hbody

/-- A marker in the tree is recorded and taken out, though there are delegates; the same marker in
the body of a delegate is not. -/
theorem lower_delegatedLargeOrders :
    lower ⟨Sample.model, Sample.catalog⟩ delegatedLargeOrders =
        .ok ⟨largeOrders (.entitySet "Order") isLargeOrder, { tracking := .tracking }⟩ ∧
      (∀ n ∈ (largeOrders (.entitySet "Order") isLargeOrder).nodes,
        n.marker? ≠ some .asTracking) ∧
      ∃ l, lower ⟨Sample.model, Sample.catalog⟩ (invokeDelegate "orders" trackedOrders) = .ok l ∧
        (∃ n ∈ l.expr.nodes, n.marker? = some .asTracking) ∧ l.metadata = {} := by
  have h : lower ⟨Sample.model, Sample.catalog⟩ delegatedLargeOrders =
      .ok ⟨largeOrders (.entitySet "Order") isLargeOrder, { tracking := .tracking }⟩ := by cbv
  obtain ⟨hclean, hleak⟩ :=
    markers_of_lowered_come_from_delegates ⟨Sample.model, Sample.catalog⟩ .asTracking
  have hsettled : (Pass.series ⟨Sample.model, Sample.catalog⟩ (.inlining :: Pass.afterInlining)
      trackedOrders .fresh).1 = List.replicate 8 trackedOrders := by cbv
  have hmarker : ∃ n ∈ trackedOrders.nodes, n.marker? = some .asTracking :=
    ⟨trackedOrders, by rw [nodes_eq]; exact List.mem_cons_self, rfl⟩
  exact ⟨h, hclean _ _ h not_conceals_delegatedLargeOrders,
    hleak "orders" trackedOrders (Pass.series_eq_replicate_iff.mp hsettled) hmarker⟩

/-- A lowered query with a marker in it. -/
theorem lower_invokeDelegate_trackedOrders :
    lower ⟨Sample.model, Sample.catalog⟩ (invokeDelegate "orders" trackedOrders) =
        .ok ⟨trackedOrders, {}⟩ ∧
      trackedOrders ∈ trackedOrders.nodes ∧ trackedOrders.marker? = some .asTracking := by
  refine ⟨by cbv, ?_, rfl⟩
  rw [nodes_eq]
  exact List.mem_cons_self

end QueryLowering
