import QueryLowering.Proofs.Aliases
import QueryLowering.Proofs.Capture
import QueryLowering.Proofs.Failures
import QueryLowering.Proofs.Invocations

/-!
How deeply inlinings nest. Arguments are put into a body before they are inlined, so an invocation in
an argument counts as nested in every invocation around the place where the argument ends up. For
queries that pass no functions around, this depth can be read off the tree: the limit is not
reached if the depth is within it, and is always reached otherwise. A chain of plain applications is
as deep as it is long, and a captured parameter can make the depth infinite.
-/

namespace QueryLowering

/-- Look-ups by the same keys in two lists of the same length find the same position. -/
theorem exists_lookup_zip {α β γ : Type} [BEq α] {keys : List α} {as : List β} {bs : List γ}
    {key : α} {b : γ} (hlen : bs.length = as.length) (h : (keys.zip bs).lookup key = some b) :
    ∃ a, (keys.zip as).lookup key = some a ∧ (a, b) ∈ as.zip bs := by
  induction keys generalizing as bs with
  | nil => cases h
  | cons k keys ih =>
    cases bs with
    | nil => cases h
    | cons c bs =>
      cases as with
      | nil => cases hlen
      | cons a as =>
        simp only [List.zip_cons_cons, List.lookup_cons] at h ⊢
        cases hkey : key == k with
        | true =>
          rw [hkey] at h
          cases h
          exact ⟨a, rfl, List.mem_cons_self⟩
        | false =>
          rw [hkey] at h
          obtain ⟨x, hx, hmem⟩ := ih (Nat.succ.inj hlen) h
          exact ⟨x, hx, List.mem_cons_of_mem _ hmem⟩

theorem mem_of_lookup_zip {α β : Type} [BEq α] [LawfulBEq α] {keys : List α} {as : List β}
    {key : α} {a : β} (h : (keys.zip as).lookup key = some a) : key ∈ keys :=
  (List.of_mem_zip (mem_of_lookup h)).1

namespace Expr

theorem subst_quote (σ : Bindings) (inner : Expr) :
    subst σ (.quote inner) = .quote (subst σ inner) :=
  subst_eq_setChildren σ _ (by simp) (by simp)

theorem subst_const (σ : Bindings) (value : Constant Expr) (type : DataType) :
    subst σ (.const value type) = .const value type :=
  subst_eq_setChildren σ _ (by simp) (by simp)

theorem subst_invoke (σ : Bindings) (callee : Expr) (args : List Expr) (type : DataType) :
    subst σ (.invoke callee args type) = .invoke (subst σ callee) (args.map (subst σ)) type :=
  subst_eq_setChildren σ _ (by simp) (by simp)

end Expr

namespace Pass.Inlining

open QueryLowering.Expr

variable {called : String → Prop} {budget d : Nat} {e callee body : Expr} {args : List Expr}
  {type : DataType} {params : List Param} {ds : List Nat} {σ : Bindings}

/-- The node becomes no lambda if it is inlined, nor if anything is put for called parameters. -/
structure Inert (called : String → Prop) (e : Expr) : Prop where
  lambda : ∀ params body, e ≠ .lambda params body
  invoke : e.isInvoke = false
  param : ∀ p, e = .param p → ¬ called p.name

/-- The callee stands for no lambda, and never will. -/
inductive StaysUnknown (called : String → Prop) : Expr → Prop
  | quote {inner : Expr} : Inert called inner → StaysUnknown called (.quote inner)
  | plain {callee : Expr} : Inert called callee → callee.kindName ≠ "Quote" →
      knownLambda? callee = none → StaysUnknown called callee

theorem Inert.setChildren (h : Inert called e) (cs : List Expr) :
    Inert called (e.setChildren cs) where
  lambda := setChildren_ne_lambda h.lambda cs
  invoke := (isInvoke_setChildren e cs).trans h.invoke
  param p hp := h.param p (eq_param_of_setChildren hp)

theorem Inert.exists_subst (h : Inert called e)
    (hσ : ∀ p a, σ.lookup p = some a → called p.name) : ∃ cs, subst σ e = e.setChildren cs := by
  by_cases hparam : ∃ p, e = .param p
  · obtain ⟨p, rfl⟩ := hparam
    have hnone : σ.lookup p = none :=
      Option.eq_none_iff_forall_not_mem.mpr fun a ha => h.param p rfl (hσ p a ha)
    refine ⟨[], ?_⟩
    rw [subst_param, hnone]
    rfl
  · exact ⟨_, subst_eq_setChildren σ e (fun p hp => hparam ⟨p, hp⟩) h.lambda⟩

theorem Inert.exists_inline {e' : Expr} (h : Inert called e) (hinline : inline budget e = .ok e') :
    ∃ cs, e' = e.setChildren cs := by
  rw [inline_eq_traverse h.invoke, traverse_eq, map_eq_ok] at hinline
  obtain ⟨cs, -, rfl⟩ := hinline
  exact ⟨cs, rfl⟩

theorem knownLambda?_setChildren (hquote : e.kindName ≠ "Quote") (h : knownLambda? e = none)
    (cs : List Expr) : knownLambda? (e.setChildren cs) = none := by
  unfold Expr.setChildren
  split
  case h_4 => cases h
  case h_5 => exact absurd rfl hquote
  all_goals first | rfl | exact h

theorem StaysUnknown.subst (h : StaysUnknown called callee)
    (hσ : ∀ p a, σ.lookup p = some a → called p.name) : StaysUnknown called (subst σ callee) := by
  cases h with
  | quote hinert =>
    obtain ⟨cs, hcs⟩ := hinert.exists_subst hσ
    rw [subst_quote, hcs]
    exact .quote (hinert.setChildren cs)
  | plain hinert hkind hknown =>
    obtain ⟨cs, hcs⟩ := hinert.exists_subst hσ
    rw [hcs]
    exact .plain (hinert.setChildren cs) (by rwa [kindName_setChildren])
      (knownLambda?_setChildren hkind hknown cs)

theorem StaysUnknown.knownLambda?_eq_none (h : StaysUnknown called callee) :
    knownLambda? callee = none := by
  cases h with
  | @quote inner hinert =>
    cases inner with
    | lambda params body => exact absurd rfl (hinert.lambda params body)
    | _ => rfl
  | plain _ _ hknown => exact hknown

/-- What is inlined of a callee that stays unknown is unknown. -/
theorem StaysUnknown.inline {callee' : Expr} (h : StaysUnknown called callee)
    (hinline : inline budget callee = .ok callee') : knownLambda? callee' = none := by
  cases h with
  | @quote inner hinert =>
    rw [inline_eq_traverse rfl, traverse_eq, map_eq_ok] at hinline
    obtain ⟨cs, hcs, rfl⟩ := hinline
    obtain ⟨inner', _, hinner, hnil, rfl⟩ := List.forall₂_cons_left_iff.mp (mapM_eq_ok.mp hcs)
    cases hnil
    obtain ⟨ds, rfl⟩ := hinert.exists_inline hinner
    exact (StaysUnknown.quote (hinert.setChildren ds)).knownLambda?_eq_none
  | plain hinert hkind hknown =>
    obtain ⟨cs, rfl⟩ := hinert.exists_inline hinline
    exact knownLambda?_setChildren hkind hknown cs

/-- How deep the invocations are in what will stand for each parameter in scope. -/
abbrev Depths := Param → Option Nat

namespace Depths

/-- No parameter of an invoked lambda is in scope. -/
def empty : Depths := fun _ => none

/-- What the lambda of a callee sees of its surroundings. Nothing is put into a delegate. -/
def around (Γ : Depths) : Expr → Depths
  | .const .. => empty
  | _ => Γ

/-- The scope inside of a lambda that is invoked with arguments of the given depths. -/
def enter (Γ : Depths) (params : List Param) (ds : List Nat) : Depths := fun p =>
  if hides params p.name then (params.zip ds).lookup p else Γ p

end Depths

/-- The query passes no functions around, and its invocations nest to the given depth. The called
names are those of the parameters of invoked lambdas. They are referred to in the bodies of their
lambdas only, and no lambda that stands by itself binds them. A callee is a lambda, or it never becomes
one: it is neither an invocation nor a parameter of a called name. -/
inductive Nests (called : String → Prop) : Depths → Expr → Nat → Prop
  | argument {Γ : Depths} {p : Param} {d : Nat} : Γ p = some d → Nests called Γ (.param p) d
  | param {Γ : Depths} {p : Param} : ¬ called p.name → Nests called Γ (.param p) 0
  | lambda {Γ : Depths} {params : List Param} {body : Expr} {d : Nat} :
      (∀ p ∈ params, ¬ called p.name) → Nests called Γ body d →
      Nests called Γ (.lambda params body) d
  | apply {Γ : Depths} {callee body : Expr} {args : List Expr} {type : DataType}
      {params : List Param} {ds : List Nat} {d : Nat} :
      knownLambda? callee = some (params, body) → (∀ p ∈ params, called p.name) →
      ds.length = args.length → (∀ a ∈ args.zip ds, Nests called Γ a.1 a.2) →
      Nests called ((Γ.around callee).enter params ds) body d →
      Nests called Γ (.invoke callee args type) (d + 1)
  | unknown {Γ : Depths} {callee : Expr} {args : List Expr} {type : DataType} {d : Nat} :
      StaysUnknown called callee → Nests called Γ callee d →
      Nests called Γ (.invoke callee args type) d
  | node {Γ : Depths} {e : Expr} {ds : List Nat} :
      (∀ p, e ≠ .param p) → (∀ params body, e ≠ .lambda params body) → e.isInvoke = false →
      ds.length = e.children.length → (∀ c ∈ e.children.zip ds, Nests called Γ c.1 c.2) →
      Nests called Γ e (ds.foldr max 0)

theorem Nests.literal {Γ : Depths} (v : Scalar) : Nests called Γ (.literal v) 0 :=
  @Nests.node called Γ (.literal v) [] (by simp [Expr.literal]) (by simp [Expr.literal]) rfl rfl
    (by simp)

/-- All that is in one scope is in the other, with the same depth. -/
def Depths.Within (Γ Γ' : Depths) : Prop := ∀ p d, Γ p = some d → Γ' p = some d

theorem Depths.Within.around {Γ Γ' : Depths} (h : Γ.Within Γ') (callee : Expr) :
    (Γ.around callee).Within (Γ'.around callee) := by
  cases callee with
  | const value type => exact fun _ _ hp => hp
  | _ => exact h

theorem Depths.Within.enter {Γ Γ' : Depths} (h : Γ.Within Γ') (params : List Param)
    (ds : List Nat) : (Γ.enter params ds).Within (Γ'.enter params ds) := by
  intro p d hp
  unfold Depths.enter at hp ⊢
  split
  · rwa [if_pos ‹_›] at hp
  · rw [if_neg ‹_›] at hp
    exact h p d hp

/-- A query may stand in a larger scope. -/
theorem Nests.weaken {Γ Γ' : Depths} (h : Nests called Γ e d) (hΓ : Γ.Within Γ') :
    Nests called Γ' e d := by
  induction h generalizing Γ' with
  | argument hp => exact .argument (hΓ _ _ hp)
  | param hp => exact .param hp
  | lambda hparams _ ih => exact .lambda hparams (ih hΓ)
  | apply hknown hparams hlen _ _ ihArgs ihBody =>
    exact .apply hknown hparams hlen (fun a ha => ihArgs a ha hΓ)
      (ihBody ((hΓ.around _).enter _ _))
  | unknown hcallee _ ih => exact .unknown hcallee (ih hΓ)
  | node hparam hlambda hinvoke hlen _ ih =>
    exact .node hparam hlambda hinvoke hlen fun c hc => ih c hc hΓ

/-- Bindings that take one scope to another: what they bind has the depth that the first scope
expects, and all else is in the second scope as it is in the first. -/
structure Fits (called : String → Prop) (σ : Bindings) (Δ Γ : Depths) : Prop where
  names : ∀ p a, σ.lookup p = some a → called p.name
  bound : ∀ p a d, σ.lookup p = some a → Δ p = some d → Nests called .empty a d
  unbound : ∀ p d, σ.lookup p = none → Δ p = some d → Γ p = some d

theorem lookup_of_lookup_visible {p : Param} {a : Expr}
    (h : (σ.visible params).lookup p = some a) :
    hides params p.name = false ∧ σ.lookup p = some a := by
  cases hhides : hides params p.name with
  | true =>
    rw [lookup_visible_of_hides hhides] at h
    cases h
  | false =>
    rw [lookup_visible hhides] at h
    exact ⟨rfl, h⟩

/-- Below a lambda that binds no called name, nothing changes. -/
theorem Fits.lambda {Δ Γ : Depths} (h : Fits called σ Δ Γ)
    (hparams : ∀ p ∈ params, ¬ called p.name) : Fits called (σ.visible params) Δ Γ where
  names p a ha := h.names p a (lookup_of_lookup_visible ha).2
  bound p a d ha hd := h.bound p a d (lookup_of_lookup_visible ha).2 hd
  unbound p d hnone hd := by
    refine h.unbound p d ?_ hd
    cases hhides : hides params p.name with
    | true =>
      obtain ⟨q, hq, hname⟩ := List.any_eq_true.mp hhides
      refine Option.eq_none_iff_forall_not_mem.mpr fun a ha => hparams q hq ?_
      rw [beq_iff_eq.mp hname]
      exact h.names p a ha
    | false =>
      rw [← lookup_visible hhides]
      exact hnone

/-- Below an invoked lambda, what it hides is bound by its arguments. -/
theorem Fits.enter {Δ Γ : Depths} (h : Fits called σ Δ Γ) (params : List Param) (ds : List Nat) :
    Fits called (σ.visible params) (Δ.enter params ds) (Γ.enter params ds) where
  names p a ha := h.names p a (lookup_of_lookup_visible ha).2
  bound p a d ha hd := by
    obtain ⟨hhides, ha⟩ := lookup_of_lookup_visible ha
    refine h.bound p a d ha ?_
    rwa [Depths.enter, if_neg (by simp [hhides])] at hd
  unbound p d hnone hd := by
    unfold Depths.enter at hd ⊢
    split
    · rwa [if_pos ‹_›] at hd
    · rename_i hhides
      rw [Bool.not_eq_true] at hhides
      rw [if_neg (by simp [hhides])] at hd
      rw [lookup_visible hhides] at hnone
      exact h.unbound p d hnone hd

/-- The lambda of a callee after a substitution. Nothing is put into a delegate. -/
theorem knownLambda?_subst (hknown : knownLambda? callee = some (params, body)) (σ : Bindings) :
    subst σ callee = callee ∧ (∀ Γ, Depths.around Γ callee = .empty) ∨
      knownLambda? (subst σ callee) = some (params, subst (σ.visible params) body) ∧
        ∀ Γ, Depths.around Γ callee = Γ ∧ Depths.around Γ (subst σ callee) = Γ := by
  unfold knownLambda? at hknown
  split at hknown
  · cases hknown
    rw [subst_lambda]
    exact .inr ⟨rfl, fun _ => ⟨rfl, rfl⟩⟩
  · cases hknown
    rw [subst_quote, subst_lambda]
    exact .inr ⟨rfl, fun _ => ⟨rfl, rfl⟩⟩
  · exact .inl ⟨subst_const σ _ _, fun _ => rfl⟩
  · cases hknown

/-- Substitution of arguments in a scope that expects their depths. The induction is on the way in
which the query was found to nest; only below lambdas do the bindings change. -/
theorem Nests.subst {Δ Γ : Depths} (h : Nests called Δ e d) (hσ : Fits called σ Δ Γ) :
    Nests called Γ (subst σ e) d := by
  induction h generalizing σ Γ with
  | @argument Δ p d hp =>
    rw [subst_param]
    cases hlookup : σ.lookup p with
    | none => exact .argument (hσ.unbound p d hlookup hp)
    | some a => exact (hσ.bound p a d hlookup hp).weaken fun _ _ hnone => by cases hnone
  | @param Δ p hp =>
    have hnone : σ.lookup p = none :=
      Option.eq_none_iff_forall_not_mem.mpr fun a ha => hp (hσ.names p a ha)
    rw [subst_param, hnone]
    exact .param hp
  | lambda hparams _ ih =>
    rw [subst_lambda]
    exact .lambda hparams (ih (hσ.lambda hparams))
  | @apply Δ callee body args type params ds d hknown hparams hlen _ hbody ihArgs ihBody =>
    rw [subst_invoke]
    have hargs : ∀ a ∈ (args.map (Expr.subst σ)).zip ds, Nests called Γ a.1 a.2 := by
      rw [List.zip_map_left]
      exact List.forall_mem_map.mpr fun a ha => ihArgs a ha hσ
    have hlen' : ds.length = (args.map (Expr.subst σ)).length := by rw [List.length_map, hlen]
    -- Nothing is put into a delegate, and into other lambdas what their parameters do not hide.
    rcases knownLambda?_subst hknown σ with ⟨hcallee, haround⟩ | ⟨hknown', haround⟩
    · rw [hcallee]
      refine .apply hknown hparams hlen' hargs ?_
      rwa [haround] at hbody ⊢
    · refine .apply hknown' hparams hlen' hargs (ihBody ?_)
      rw [(haround Δ).1, (haround Γ).2]
      exact hσ.enter params ds
  | unknown hcallee _ ih =>
    rw [subst_invoke]
    exact .unknown (hcallee.subst hσ.names) (ih hσ)
  | @node Δ e ds hparam hlambda hinvoke hlen _ ih =>
    rw [subst_eq_setChildren σ e hparam hlambda]
    have hchildren : (e.setChildren (e.children.map (Expr.subst σ))).children =
        e.children.map (Expr.subst σ) := children_setChildren (List.length_map _)
    refine .node (fun p hp => hparam p (eq_param_of_setChildren hp))
      (setChildren_ne_lambda hlambda _) ((isInvoke_setChildren e _).trans hinvoke) ?_ ?_
    · rw [hchildren, List.length_map, hlen]
    · rw [hchildren, List.zip_map_left]
      exact List.forall_mem_map.mpr fun c hc => ih c hc hσ

/-- The arguments of an invocation have the depths that the body of the lambda expects. -/
theorem fits_zip (hparams : ∀ p ∈ params, called p.name) (hlen : ds.length = args.length)
    (hargs : ∀ a ∈ args.zip ds, Nests called .empty a.1 a.2) :
    Fits called (params.zip args) (Depths.empty.enter params ds) .empty := by
  have hfound : ∀ {p d}, Depths.empty.enter params ds p = some d →
      ∃ a, (params.zip args).lookup p = some a ∧ (a, d) ∈ args.zip ds := by
    intro p d hd
    unfold Depths.enter at hd
    split at hd
    · exact exists_lookup_zip hlen hd
    · cases hd
  refine ⟨fun p a ha => hparams p (mem_of_lookup_zip ha), fun p a d ha hd => ?_,
    fun p d hnone hd => ?_⟩
  · obtain ⟨a', ha', hmem⟩ := hfound hd
    rw [ha] at ha'
    cases ha'
    exact hargs (a, d) hmem
  · obtain ⟨a', ha', -⟩ := hfound hd
    rw [hnone] at ha'
    cases ha'

/-- An invocation of a lambda that is known: it is inlined if it has as many arguments as the lambda
takes and the budget is not used up. -/
def applied (budget : Nat) (e : Expr) (args : List Expr) (params : List Param) (body : Expr) :
    Except Failure Expr :=
  if params.length ≠ args.length then .error (wrongArity args.length params.length e)
  else match budget with
    | 0 => .error (tooDeep e)
    | budget + 1 => inline budget (subst (params.zip args) body)

theorem inline_known (hknown : knownLambda? callee = some (params, body)) :
    inline budget (.invoke callee args type) =
      applied budget (.invoke callee args type) args params body := by
  rw [inline.eq_def]
  simp only [hknown, Option.isSome_some, if_true, pure_bind]
  rfl

theorem inline_succ (hknown : knownLambda? callee = some (params, body))
    (hlen : params.length = args.length) :
    inline (budget + 1) (.invoke callee args type) =
      inline budget (subst (params.zip args) body) := by
  rw [inline_known hknown, applied, if_neg (not_not_intro hlen)]

theorem inline_not_known (hknown : knownLambda? callee = none) :
    inline budget (.invoke callee args type) =
      inline budget callee >>= fun callee' =>
        match knownLambda? callee' with
        | none => .error (unresolved (.invoke callee args type))
        | some (params, body) => applied budget (.invoke callee args type) args params body := by
  rw [inline.eq_def]
  simp only [hknown, Option.isSome_none, Bool.false_eq_true, if_false]
  rfl

/-- An invocation whose callee stays unknown fails. -/
theorem inline_unknown (h : StaysUnknown called callee) :
    inline budget (.invoke callee args type) =
      inline budget callee >>= fun _ => .error (unresolved (.invoke callee args type)) := by
  rw [inline_not_known h.knownLambda?_eq_none]
  cases hcallee : inline budget callee with
  | error f => rfl
  | ok callee' =>
    change (match knownLambda? callee' with | none => _ | some (params, body) => _) = _
    rw [h.inline hcallee]
    rfl

/-- The failure is that inlinings were nested too deeply. -/
def IsTooDeep (f : Failure) : Prop := f.message = "Invocation nesting too deep"

theorem not_isTooDeep_wrongArity (n m : Nat) (e : Expr) : ¬ IsTooDeep (wrongArity n m e) := by
  intro h
  have hmessage : "Invocation passes " ++ toString n ++ " arguments to a lambda taking " ++
      toString m = "Invocation nesting too deep" := h
  have hchars := congrArg String.toList hmessage
  simp at hchars

theorem not_isTooDeep_unresolved (e : Expr) : ¬ IsTooDeep (unresolved e) := by
  intro h
  have hmessage : "Invocation target is not a lambda known at compile time" =
      "Invocation nesting too deep" := h
  exact absurd hmessage (by decide)

theorem applied_stable {budget' : Nat} (hle : budget ≤ budget')
    (ih : ∀ rest < budget, ∀ rest' e, rest ≤ rest' →
      FailsOnly (fun f => ¬ IsTooDeep f) (inline rest e) → inline rest' e = inline rest e)
    (h : FailsOnly (fun f => ¬ IsTooDeep f) (applied budget e args params body)) :
    applied budget' e args params body = applied budget e args params body := by
  unfold applied at h ⊢
  split
  · rfl
  · rename_i harity
    rw [if_neg harity] at h
    cases budget with
    | zero => exact absurd rfl (h _ rfl)
    | succ rest =>
      cases budget' with
      | zero => cases hle
      | succ rest' => exact ih rest (Nat.lt_succ_self rest) rest' _ (Nat.le_of_succ_le_succ hle) h

/-- A larger budget changes nothing unless the smaller one was used up. -/
theorem inline_stable {budget' : Nat} (hle : budget ≤ budget')
    (h : FailsOnly (fun f => ¬ IsTooDeep f) (inline budget e)) :
    inline budget' e = inline budget e := by
  induction budget using Nat.strongRecOn generalizing budget' e with
  | ind budget ihBudget =>
    induction e using childInduction with
    | step e ih =>
      cases hinvoke : e.isInvoke with
      | false =>
        rw [inline_eq_traverse hinvoke, traverse_eq] at h ⊢
        rw [inline_eq_traverse hinvoke, traverse_eq, FailsOnly.mapM_eq ih h.of_map]
      | true =>
        obtain ⟨callee, args, type, rfl⟩ := exists_of_isInvoke hinvoke
        cases hknown : knownLambda? callee with
        | some lambda =>
          rw [inline_known hknown] at h ⊢
          rw [inline_known hknown]
          exact applied_stable hle (fun rest hrest _ _ => ihBudget rest hrest) h
        | none =>
          -- The callee is inlined first, and may turn out to be a lambda then.
          rw [inline_not_known hknown] at h ⊢
          rw [inline_not_known hknown, ih callee (by simp [children]) h.of_bind]
          cases hcallee : inline budget callee with
          | error f => rfl
          | ok callee' =>
            simp only [hcallee, bind, Except.bind] at h ⊢
            cases hlambda : knownLambda? callee' with
            | none => rfl
            | some lambda =>
              rw [hlambda] at h
              exact applied_stable hle (fun rest hrest _ _ => ihBudget rest hrest) h

theorem foldr_max_le_iff {n : Nat} : ds.foldr max 0 ≤ n ↔ ∀ d ∈ ds, d ≤ n := by
  induction ds with
  | nil => simp
  | cons d ds ih => simp [ih]

theorem Depths.around_empty (callee : Expr) : Depths.empty.around callee = .empty := by
  cases callee <;> rfl

/-- What an invocation is inlined to nests one less deeply. -/
theorem nests_inlined (hparams : ∀ p ∈ params, called p.name) (hlen : ds.length = args.length)
    (hargs : ∀ a ∈ args.zip ds, Nests called .empty a.1 a.2)
    (hbody : Nests called ((Depths.empty.around callee).enter params ds) body d) :
    Nests called .empty (subst (params.zip args) body) d := by
  rw [Depths.around_empty] at hbody
  exact hbody.subst (fits_zip hparams hlen hargs)

/-- Within its budget, inlining does not stop for the depth. The induction is on the budget and then
on the tree. -/
theorem Nests.failsOnly (h : Nests called .empty e d) (hd : d ≤ budget) :
    FailsOnly (fun f => ¬ IsTooDeep f) (inline budget e) := by
  induction budget using Nat.strongRecOn generalizing e d with
  | ind budget ihBudget =>
    induction e using childInduction generalizing d with
    | step e ih =>
      cases h with
      | argument hp => cases hp
      | param _ =>
        rw [inline_eq_traverse rfl]
        exact .ok _
      | lambda _ hbody =>
        rw [inline_eq_traverse rfl, traverse_eq]
        refine .map (.mapM fun c hc => ?_)
        cases List.mem_singleton.mp hc
        exact ih _ hc hbody hd
      | apply hknown hparams hlen hargs hbody =>
        rw [inline_known hknown]
        unfold applied
        split
        · exact .error (not_isTooDeep_wrongArity _ _ _)
        · -- An application is at least one deep, so there is some budget left.
          cases budget with
          | zero => omega
          | succ rest =>
            exact ihBudget rest (Nat.lt_succ_self rest) (nests_inlined hparams hlen hargs hbody)
              (Nat.le_of_succ_le_succ hd)
      | unknown hcallee hnests =>
        rw [inline_unknown hcallee]
        refine (ih _ (by simp [children]) hnests hd).bind fun _ => ?_
        exact .error (not_isTooDeep_unresolved _)
      | @node _ _ ds _ _ hinvoke hlen hchildren =>
        have hforall : List.Forall₂ (Nests called .empty) e.children ds :=
          List.forall₂_iff_zip.mpr ⟨hlen.symm, fun hc => hchildren _ hc⟩
        rw [inline_eq_traverse hinvoke, traverse_eq]
        refine .map (.mapM fun c hc => ?_)
        obtain ⟨d, hmem, hnests⟩ := exists_mem_of_forall₂ hforall hc
        exact ih c hc hnests (foldr_max_le_iff.mp hd d hmem)

/-- Beyond its budget, inlining fails. -/
theorem Nests.inline_ne_ok (h : Nests called .empty e d) (hd : budget < d) (r : Expr) :
    inline budget e ≠ .ok r := by
  induction budget using Nat.strongRecOn generalizing e d r with
  | ind budget ihBudget =>
    induction e using childInduction generalizing d r with
    | step e ih =>
      -- A node is inlined only if each of its children is.
      have hchild : e.isInvoke = false → ∀ c ∈ e.children,
          (∃ d, Nests called .empty c d ∧ budget < d) → inline budget e ≠ .ok r := by
        rintro hinvoke c hc ⟨d, hnests, hd⟩ hok
        rw [inline_eq_traverse hinvoke, traverse_eq, map_eq_ok] at hok
        obtain ⟨cs, hcs, -⟩ := hok
        obtain ⟨c', -, hc'⟩ := exists_mem_of_forall₂ (mapM_eq_ok.mp hcs) hc
        exact ih c hc hnests hd c' hc'
      cases h with
      | argument hp => cases hp
      | param _ => omega
      | lambda _ hbody => exact hchild rfl _ List.mem_cons_self ⟨d, hbody, hd⟩
      | apply hknown hparams hlen hargs hbody =>
        rw [inline_known hknown]
        unfold applied
        split
        · simp
        · cases budget with
          | zero => simp
          | succ rest =>
            exact ihBudget rest (Nat.lt_succ_self rest)
              (nests_inlined hparams hlen hargs hbody) (Nat.lt_of_succ_lt_succ hd) r
      | unknown hcallee _ =>
        intro hok
        rw [inline_unknown hcallee, bind_eq_ok] at hok
        obtain ⟨_, -, hok⟩ := hok
        cases hok
      | @node _ _ ds _ _ hinvoke hlen hchildren =>
        have hforall : List.Forall₂ (Nests called .empty) e.children ds :=
          List.forall₂_iff_zip.mpr ⟨hlen.symm, fun hc => hchildren _ hc⟩
        obtain ⟨d, hmem, hlt⟩ : ∃ d ∈ ds, budget < d := by
          by_contra hnone
          push Not at hnone
          exact absurd (foldr_max_le_iff.mpr hnone) (Nat.not_le.mpr hd)
        obtain ⟨c, hc, hnests⟩ := exists_mem_of_forall₂ hforall.flip hmem
        exact hchild hinvoke c hc ⟨d, hnests, hlt⟩

/-- A query that passes no functions around and whose names are kept apart is stopped for its depth
exactly if its invocations nest more deeply than the limit: within the limit it never is, and beyond
it always, if there is nothing else that the inlining fails for.

Nothing is said of the queries that `Nests` leaves out: those with a curried callee, which is itself an
invocation, those that invoke a parameter of an invoked lambda, those in which a lambda that is not
invoked binds the name of such a parameter, and those that refer to such a name outside of the body of
its lambda. -/
theorem limit_reached_iff_nests_deeper (h : Nests called .empty e d) :
    (d ≤ depthLimit → ∀ f, run e = .error f → ¬ IsTooDeep f) ∧
      (depthLimit < d → ∀ budget r, inline budget e = .ok r →
        ∃ f, run e = .error f ∧ IsTooDeep f) := by
  refine ⟨fun hd => h.failsOnly hd, fun hd budget r hok => ?_⟩
  have hne : ∀ r, run e ≠ .ok r := h.inline_ne_ok hd
  cases hrun : run e with
  | ok r => exact absurd hrun (hne r)
  | error f =>
    refine ⟨f, rfl, ?_⟩
    by_contra hnot
    -- Neither a smaller nor a larger budget can then lead to a result.
    rcases Nat.le_total budget depthLimit with hle | hle
    · have hsame : run e = inline budget e := inline_stable hle (.of_eq_ok hok)
      exact hne r (hsame.trans hok)
    · have hsame : inline budget e = run e := by
        refine inline_stable hle ?_
        have hfails : FailsOnly (fun f => ¬ IsTooDeep f) (run e) := by
          rw [hrun]
          exact .error hnot
        exact hfails
      rw [hok, hrun] at hsame
      cases hsame

/-- A parameter that stands for a number. -/
def number (name : String) : Param := ⟨name, .int32⟩

/-- A lambda from numbers to numbers, applied. -/
def applyTo (name : String) (body arg : Expr) : Expr :=
  .invoke (.lambda [number name] body) [arg] .int32

theorem inline_applyTo (budget : Nat) (name : String) (body arg : Expr) :
    inline (budget + 1) (applyTo name body arg) =
      inline budget (subst [(number name, arg)] body) := by
  have hknown : knownLambda? (.lambda [number name] body) = some ([number name], body) := rfl
  exact inline_succ hknown rfl

theorem inline_zero_applyTo (name : String) (body arg : Expr) :
    inline 0 (applyTo name body arg) = .error (tooDeep (applyTo name body arg)) := by
  have hknown : knownLambda? (.lambda [number name] body) = some ([number name], body) := rfl
  exact inline_known hknown

theorem inline_seven (budget : Nat) :
    inline budget (.literal (.int32 7)) = .ok (.literal (.int32 7)) := inline_eq_traverse rfl

/-- The identity applied to seven, as often as given. -/
def identities : Nat → Expr
  | 0 => .literal (.int32 7)
  | n + 1 => applyTo "x" (.param (number "x")) (identities n)

theorem nests_identities (n : Nat) : Nests (· = "x") .empty (identities n) n := by
  induction n with
  | zero => exact .literal _
  | succ n ih =>
    have hargs : ∀ a ∈ [identities n].zip [n], Nests (· = "x") .empty a.1 a.2 := by
      intro a ha
      cases List.mem_singleton.mp ha
      exact ih
    exact .apply rfl (by simp [number]) rfl hargs (.argument rfl)

theorem inline_identities (budget n : Nat) :
    inline budget (identities (n + budget)) = inline 0 (identities n) := by
  induction budget with
  | zero => rfl
  | succ budget ih =>
    have hsubst : subst [(number "x", identities (n + budget))] (.param (number "x")) =
        identities (n + budget) := by simp
    calc
      inline (budget + 1) (identities (n + (budget + 1)))
        = inline budget (subst [(number "x", identities (n + budget))] (.param (number "x"))) :=
          inline_applyTo budget "x" _ _
      _ = inline budget (identities (n + budget)) := by rw [hsubst]
      _ = inline 0 (identities n) := ih

theorem limit_reached_by_identities :
    (∀ f, run (identities 64) = .error f → ¬ IsTooDeep f) ∧
      ∃ f, run (identities 65) = .error f ∧ IsTooDeep f := by
  have hseven : inline 65 (identities 65) = .ok (.literal (.int32 7)) :=
    (inline_identities 65 0).trans (inline_seven 0)
  have hdeep := (limit_reached_iff_nests_deeper (nests_identities 65)).2 (by decide)
  exact ⟨(limit_reached_iff_nests_deeper (nests_identities 64)).1 (by decide), hdeep 65 _ hseven⟩

/-- Is a parameter invoked here? -/
def invokesParam : Expr → Bool
  | .invoke (.param _) _ _ => true
  | _ => false

theorem not_invokesParam_identities (n : Nat) :
    ∀ x ∈ (identities n).allNodes, invokesParam x = false := by
  induction n with
  | zero => simp [allNodes_eq, identities, Expr.literal, parts, children, invokesParam]
  | succ n ih =>
    have hparts : (identities (n + 1)).parts =
        [.lambda [number "x"] (.param (number "x")), identities n] := rfl
    have hlambda : (Expr.lambda [number "x"] (.param (number "x"))).allNodes =
        [.lambda [number "x"] (.param (number "x")), .param (number "x")] := by
      simp [allNodes_eq, parts, children]
    rw [allNodes_eq, hparts]
    simpa [hlambda, identities, applyTo, invokesParam] using ih

/-- Gives back what is put in, by way of a lambda that ignores what it is applied to. -/
def givenBack (e : Expr) : Expr :=
  applyTo "x" (applyTo "y" (.param (number "x")) (.param (number "x"))) e

/-- Under the inner lambda, what is put in loses its own `y`. -/
theorem inline_givenBack (budget : Nat) (e : Expr) :
    inline (budget + 1) (givenBack e) = inline budget (applyTo "y" e e) := by
  have hinner : subst [(number "x", e)]
      (applyTo "y" (.param (number "x")) (.param (number "x"))) = applyTo "y" e e := by
    unfold applyTo
    rw [subst_invoke, subst_lambda]
    simp [Bindings.visible, hides, number]
  rw [givenBack, inline_applyTo, hinner]

/-- A parameter of the query, given back twice. -/
def givenBackTwice : Expr := givenBack (givenBack (.param (number "y")))

/-- A captured parameter leads inlining in a circle. -/
theorem inline_givenBackTwice (budget : Nat) :
    inline (budget + 2) givenBackTwice = inline budget givenBackTwice := by
  have hsubst : subst [(number "y", givenBack (.param (number "y")))]
      (givenBack (.param (number "y"))) = givenBackTwice := by
    have hne : ((⟨"x", .int32⟩ : Param) == ⟨"y", .int32⟩) = false := by decide
    unfold givenBackTwice givenBack applyTo
    simp only [subst_invoke, subst_lambda, List.map_cons, List.map_nil]
    simp [Bindings.visible, hides, number, List.lookup_cons, hne]
  rw [givenBackTwice, inline_givenBack, inline_applyTo, hsubst, givenBackTwice]

theorem exists_tooDeep_givenBackTwice (budget : Nat) :
    ∃ n, inline budget givenBackTwice = .error (tooDeep n) := by
  induction budget using Nat.twoStepInduction with
  | zero => exact ⟨givenBackTwice, inline_zero_applyTo _ _ _⟩
  | one => exact ⟨_, (inline_givenBack 0 _).trans (inline_zero_applyTo _ _ _)⟩
  | more budget ih _ => rwa [inline_givenBackTwice]

/-- Neither query invokes a parameter, yet the one is stopped by the limit though one more inlining
would do, and the other by every limit. -/
theorem limit_reached_without_invoked_parameters :
    (∀ n ∈ (identities 65).allNodes, invokesParam n = false) ∧
      run (identities 65) = .error (tooDeep (identities 1)) ∧
      inline 65 (identities 65) = .ok (.literal (.int32 7)) ∧
      (∀ n ∈ givenBackTwice.allNodes, invokesParam n = false) ∧
      ∀ budget, ∃ n, inline budget givenBackTwice = .error (tooDeep n) := by
  have hidentity : inline 0 (identities 1) = .error (tooDeep (identities 1)) :=
    inline_zero_applyTo _ _ _
  refine ⟨not_invokesParam_identities 65, (inline_identities 64 1).trans hidentity,
    (inline_identities 65 0).trans (inline_seven 0), ?_, exists_tooDeep_givenBackTwice⟩
  simp [givenBackTwice, givenBack, applyTo, allNodes_eq, parts, children, invokesParam]

end Pass.Inlining

end QueryLowering
