import QueryLowering.Proofs.InliningDepth

/-!
Inlining ends. The body of an invoked lambda is visited one level deeper than the invocation, and may
be larger than it; all else that is visited for a node is a part of the node. So the depth that is left
and then the size of the node decrease, whatever lambdas are put into each other. A visit needs the
results of what it visits and no others, so the limit on the depth alone determines all results.
-/

namespace QueryLowering.Pass.Inlining

open QueryLowering.Expr

variable {limit depth : Nat} {next next' : Nat → Expr → Except Failure Expr} {node e : Expr}
  {args : List Expr} {F : Failure → Prop}

/-- The end of the visit of an invocation whose callee stands for the given lambda, if for any. -/
def visitBody (limit : Nat) (next : Nat → Expr → Except Failure Expr) (depth : Nat) (node : Expr)
    (args : List Expr) : Option (List Param × Expr) → Except Failure Expr
  | none => .error (unresolved node)
  | some (params, body) =>
    if params.length ≠ args.length then .error (wrongArity args.length params.length node)
    else if limit ≤ depth then .error (tooDeep node)
    else next (depth + 1) (subst (params.zip args) body)

/-- The visit of a node at a depth, from the results of the nodes that are visited for it. -/
def visit (limit : Nat) (next : Nat → Expr → Except Failure Expr) (depth : Nat) :
    Expr → Except Failure Expr
  | .invoke callee args type =>
    (if (knownLambda? callee).isSome then .ok callee else next depth callee) >>= fun callee' =>
      visitBody limit next depth (.invoke callee args type) args (knownLambda? callee')
  | e => e.setChildren <$> e.children.mapM (next depth)

/-- What is visited for a node, each at its depth: the children, or for an invocation a callee that is
not known by itself, and the body of whatever lambda the callee stands for. -/
inductive Visits (limit : Nat) : Nat × Expr → Nat × Expr → Prop
  | child {depth : Nat} {e c : Expr} : e.isInvoke = false → c ∈ e.children →
      Visits limit (depth, c) (depth, e)
  | callee {depth : Nat} {callee : Expr} {args : List Expr} {type : DataType} :
      knownLambda? callee = none → Visits limit (depth, callee) (depth, .invoke callee args type)
  | body {depth : Nat} {callee body : Expr} {args : List Expr} {type : DataType}
      {params : List Param} : params.length = args.length → depth < limit →
      Visits limit (depth + 1, subst (params.zip args) body) (depth, .invoke callee args type)

theorem Visits.decreases {c n : Nat × Expr} (h : Visits limit c n) :
    Prod.Lex (· < ·) (· < ·) (limit - c.1, sizeOf c.2) (limit - n.1, sizeOf n.2) := by
  cases h with
  | child _ hc => exact .right _ (sizeOf_lt_of_mem_children hc)
  | callee _ => exact .right _ (sizeOf_lt_of_mem_children (by simp [children]))
  | body _ hdepth => exact .left _ _ (by omega)

theorem wellFounded_visits (limit : Nat) : WellFounded (Visits limit) :=
  Subrelation.wf Visits.decreases
    (InvImage.wf (fun n : Nat × Expr => (limit - n.1, sizeOf n.2))
      (Prod.lex Nat.lt_wfRel Nat.lt_wfRel).wf)

theorem visit_eq_mapM (he : e.isInvoke = false) :
    visit limit next depth e = e.setChildren <$> e.children.mapM (next depth) := by
  cases e with
  | invoke => cases he
  | _ => rfl

/-- A visit depends on nothing but the results of what is visited for it. -/
theorem visit_congr (h : ∀ d c, Visits limit (d, c) (depth, e) → next' d c = next d c) :
    visit limit next' depth e = visit limit next depth e := by
  cases hinvoke : e.isInvoke with
  | false =>
    have hchildren : e.children.mapM (next' depth) = e.children.mapM (next depth) :=
      FailsOnly.mapM_eq (F := fun _ => True) (fun c hc _ => h depth c (.child hinvoke hc))
        fun _ _ => trivial
    rw [visit_eq_mapM hinvoke, visit_eq_mapM hinvoke, hchildren]
  | true =>
    obtain ⟨callee, args, type, rfl⟩ := exists_of_isInvoke hinvoke
    have hbody : visitBody limit next' depth (.invoke callee args type) args =
        visitBody limit next depth (.invoke callee args type) args := by
      funext lambda
      rcases lambda with _ | ⟨params, body⟩
      · rfl
      · simp only [visitBody]
        split
        · rfl
        · rename_i hlen
          split
          · rfl
          · rename_i hlimit
            -- Within the limit, the body is visited one level deeper.
            exact h _ _ (.body (not_not.mp hlen) (Nat.not_le.mp hlimit))
    rw [visit, visit, hbody]
    split
    · rfl
    · rename_i hknown
      rw [h depth callee (.callee (Option.not_isSome_iff_eq_none.mp hknown))]

/-- A visit fails only as what is visited for it does, or at an invocation. -/
theorem failsOnly_visit (hunresolved : ∀ n, F (unresolved n))
    (harity : ∀ k l n, F (wrongArity k l n)) (hdeep : ∀ n, F (tooDeep n))
    (h : ∀ d c, Visits limit (d, c) (depth, e) → FailsOnly F (next d c)) :
    FailsOnly F (visit limit next depth e) := by
  cases hinvoke : e.isInvoke with
  | false =>
    rw [visit_eq_mapM hinvoke]
    exact .map (.mapM fun c hc => h depth c (.child hinvoke hc))
  | true =>
    obtain ⟨callee, args, type, rfl⟩ := exists_of_isInvoke hinvoke
    refine FailsOnly.bind ?_ fun callee' => ?_
    · split
      · exact .ok _
      · rename_i hknown
        exact h depth callee (.callee (Option.not_isSome_iff_eq_none.mp hknown))
    · rcases knownLambda? callee' with _ | ⟨params, body⟩
      · exact .error (hunresolved _)
      · simp only [visitBody]
        split
        · exact .error (harity _ _ _)
        · rename_i hlen
          split
          · exact .error (hdeep _)
          · rename_i hlimit
            exact h _ _ (.body (not_not.mp hlen) (Nat.not_le.mp hlimit))

theorem applied_eq_visitBody (limit depth : Nat) (node : Expr) (args : List Expr)
    (params : List Param) (body : Expr) :
    applied (limit - depth) node args params body =
      visitBody limit (fun d c => inline (limit - d) c) depth node args (some (params, body)) := by
  simp only [applied, visitBody]
  split
  · rfl
  · by_cases hlimit : limit ≤ depth
    · rw [if_pos hlimit, Nat.sub_eq_zero_of_le hlimit]
    · have hleft : limit - depth = limit - (depth + 1) + 1 := by omega
      rw [if_neg hlimit, hleft]

/-- Inlining visits one node after the other; the budget is what a depth leaves of the limit. -/
theorem inline_eq_visit (limit depth : Nat) (e : Expr) :
    inline (limit - depth) e = visit limit (fun d c => inline (limit - d) c) depth e := by
  cases hinvoke : e.isInvoke with
  | false => rw [inline_eq_traverse hinvoke, traverse_eq, visit_eq_mapM hinvoke]
  | true =>
    obtain ⟨callee, args, type, rfl⟩ := exists_of_isInvoke hinvoke
    cases hknown : knownLambda? callee with
    | some lambda =>
      obtain ⟨params, body⟩ := lambda
      rw [inline_known hknown, applied_eq_visitBody, visit, hknown, Option.isSome_some, if_pos rfl]
      simp only [bind, Except.bind, hknown]
    | none =>
      rw [inline_not_known hknown, visit, hknown, Option.isSome_none, if_neg Bool.false_ne_true]
      refine congrArg _ (funext fun callee' => ?_)
      cases knownLambda? callee' with
      | none => rfl
      | some lambda => exact applied_eq_visitBody _ _ _ _ _ _

/-- What inlining may fail with: the invocation is of no known lambda, or it does not fit. -/
def AtInvocation (f : Failure) : Prop := f.kind = .unresolvedInvocation ∨ f.kind = .unsupportedShape

/-- Inlining ends for every query, and only the limit on nested inlinings is needed for that: what is
visited for a node is below it in a well-founded order, so there is one result for every node at every
depth. Every failure is one of an invocation. -/
theorem inlining_terminates :
    (∀ limit, WellFounded (Visits limit)) ∧
    (∀ limit next next' depth e, (∀ d c, Visits limit (d, c) (depth, e) → next' d c = next d c) →
      visit limit next' depth e = visit limit next depth e) ∧
    ∃ inlined, (∀ depth e, inlined depth e = visit depthLimit inlined depth e) ∧
      (∀ other, (∀ depth e, other depth e = visit depthLimit other depth e) → other = inlined) ∧
      ∀ e, run e = inlined 0 e ∧ ∀ f, run e = .error f → AtInvocation f := by
  refine ⟨wellFounded_visits, fun limit next next' depth e => visit_congr,
    fun depth e => inline (depthLimit - depth) e, inline_eq_visit depthLimit, fun other hother => ?_,
    fun e => ⟨rfl, ?_⟩⟩
  · -- Two systems of results agree at a node if they do at all that is visited for it.
    have hsame : ∀ n : Nat × Expr, other n.1 n.2 = inline (depthLimit - n.1) n.2 := by
      intro n
      induction n using (wellFounded_visits depthLimit).induction with
      | _ n ih =>
        rw [hother, inline_eq_visit]
        exact visit_congr fun d c hc => ih (d, c) hc
    exact funext fun depth => funext fun e => hsame (depth, e)
  · have hfails : ∀ n : Nat × Expr, FailsOnly AtInvocation (inline (depthLimit - n.1) n.2) := by
      intro n
      induction n using (wellFounded_visits depthLimit).induction with
      | _ n ih =>
        rw [inline_eq_visit]
        exact failsOnly_visit (fun _ => .inl rfl) (fun _ _ _ => .inr rfl) (fun _ => .inr rfl)
          fun d c hc => ih (d, c) hc
    exact hfails (0, e)

/-- The application of a parameter to itself. -/
def selfApplication : Expr :=
  .lambda [number "x"] (.invoke (.param (number "x")) [.param (number "x")] .int32)

/-- The self-application, applied to itself: every inlining leads back to it, so every limit is
reached. -/
theorem inline_selfApplication (budget : Nat) :
    inline budget (.invoke selfApplication [selfApplication] .int32) =
      .error (tooDeep (.invoke selfApplication [selfApplication] .int32)) := by
  have hknown : knownLambda? selfApplication = some ([number "x"],
      .invoke (.param (number "x")) [.param (number "x")] .int32) := rfl
  have hsubst : subst ([number "x"].zip [selfApplication])
      (.invoke (.param (number "x")) [.param (number "x")] .int32) =
        .invoke selfApplication [selfApplication] .int32 := by
    rw [subst_invoke]
    simp
  induction budget with
  | zero => exact inline_known hknown
  | succ budget ih => rw [inline_succ hknown rfl, hsubst, ih]

end QueryLowering.Pass.Inlining
