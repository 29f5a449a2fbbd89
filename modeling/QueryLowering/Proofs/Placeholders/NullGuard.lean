import QueryLowering.Proofs.Persistence.Rules
import QueryLowering.Proofs.Placeholders
import QueryLowering.Proofs.Settled.NullGuard

/-!
Removal of null guards does tell a placeholder from a literal: a literal is seen not to be null, a
placeholder is not unless it stands for an entity. So the guard of a literal is dropped, while the
guard of its placeholder stays. This is the only difference: filling in commutes with removal exactly
if no guard of a placeholder that becomes a literal is left.
-/

namespace QueryLowering.Pass.NullGuard

open QueryLowering.Expr Literals

variable {f : Param → Option Expr} {model : Model} {Γ : Scope} {optional : Option Nat} {e : Expr}

/-- The node guards a placeholder for which a literal is filled in. A guard of an entity is none: it
is dropped in either case. -/
def LiteralGuard (f : Param → Option Expr) : Expr → Prop
  | .cond test whenTrue whenFalse _ =>
    ∃ p value, guarded? test whenTrue whenFalse = some (param p, value) ∧
      p.type.entityName? = none ∧ ∃ v, f p = some (const v p.type)
  | _ => False

theorem not_literalGuard_of_kindName (h : e.kindName ≠ "Conditional") : ¬ LiteralGuard f e := by
  cases e with
  | cond => exact absurd rfl h
  | _ => exact id

/-- The second tree is the first one filled in, with some conditionals cut down to one of their
branches: those that guard literals, and perhaps some above them, which may have become guards. -/
inductive Thinned (f : Param → Option Expr) : Expr → Expr → Prop
  | node {e : Expr} {cs : List Expr} :
      ¬ LiteralGuard f e → cs.length = e.children.length →
        (∀ p ∈ e.children.zip cs, Thinned f p.1 p.2) → Thinned f e ((e.fill f).setChildren cs)
  | cut {test whenTrue whenFalse branch r : Expr} {type : DataType} :
      (branch = whenTrue ∨ branch = whenFalse) →
        (∃ n ∈ (cond test whenTrue whenFalse type).nodes, LiteralGuard f n) →
          Thinned f branch r → Thinned f (cond test whenTrue whenFalse type) r

namespace Thinned

variable {r l l' : Expr}

/-- A node that is no conditional keeps its place. -/
theorem of_kindName (h : Thinned f e r) (hkind : e.kindName ≠ "Conditional") :
    ∃ cs, cs.length = e.children.length ∧ (∀ p ∈ e.children.zip cs, Thinned f p.1 p.2) ∧
      r = (e.fill f).setChildren cs := by
  cases h with
  | node _ hlen hcs => exact ⟨_, hlen, hcs, rfl⟩
  | cut => exact absurd rfl hkind

theorem const {v : Constant Expr} {type : DataType} (h : Thinned f (.const v type) r) :
    r = .const v type := by
  obtain ⟨cs, -, -, rfl⟩ := h.of_kindName (by simp [kindName])
  rw [fill_const]
  rfl

theorem unary {op : UnaryOp} (h : Thinned f (.unary op e) r) :
    ∃ e', r = .unary op e' ∧ Thinned f e e' := by
  obtain ⟨cs, hlen, hcs, rfl⟩ := h.of_kindName (by simp [kindName])
  obtain ⟨e', rfl⟩ := List.length_eq_one_iff.mp hlen
  refine ⟨e', by rw [fill_unary]; rfl, hcs (e, e') ?_⟩
  simp [children]

theorem binary {op : BinaryOp} (h : Thinned f (.binary op e l) r) :
    ∃ e' l', r = .binary op e' l' ∧ Thinned f e e' ∧ Thinned f l l' := by
  obtain ⟨cs, hlen, hcs, rfl⟩ := h.of_kindName (by simp [kindName])
  obtain ⟨e', l', rfl⟩ := exists_of_length_two hlen
  refine ⟨e', l', by rw [fill_binary]; rfl, hcs (e, e') ?_, hcs (l, l') ?_⟩
  · simp [children]
  · simp [children]

theorem member {name : String} {type : DataType} (h : Thinned f (.member e name type) r) :
    ∃ e', r = .member e' name type ∧ Thinned f e e' := by
  obtain ⟨cs, hlen, hcs, rfl⟩ := h.of_kindName (by simp [kindName])
  obtain ⟨e', rfl⟩ := List.length_eq_one_iff.mp hlen
  refine ⟨e', by rw [fill_member]; rfl, hcs (e, e') ?_⟩
  simp [children]

theorem isNullConstant_eq (hf : StandIns f) (h : Thinned f e r)
    (hkind : e.kindName ≠ "Conditional") : r.isNullConstant = e.isNullConstant := by
  obtain ⟨cs, -, -, rfl⟩ := h.of_kindName hkind
  rw [isNullConstant_setChildren, hf.isNullConstant_fill]

theorem isNullConstant (h : Thinned f e r) (he : e.isNullConstant = true) :
    r.isNullConstant = true := by
  cases e with
  | const v type =>
    rw [h.const]
    exact he
  | _ => cases he

end Thinned

theorem isOptional_eq_false (hΓ : BindsUnreserved Γ) {p : Param} (hp : Reserved p.name) :
    Γ.isOptional p = false := by
  unfold Scope.isOptional
  rw [hΓ.find?_eq_none hp]
  rfl

theorem nonNull_literal {v : Constant Expr} (hv : isLiteral v = true) (type : DataType) :
    nonNull model Γ (.const v type) = true := by
  cases v with
  | scalar => exact hv
  | list => rfl
  | _ => cases hv

/-- A placeholder for an entity is never null, and neither is what may be filled in for it. -/
theorem nonNull_fill_param (hf : StandIns f) (hΓ : BindsUnreserved Γ) {p : Param}
    (h : p.type.entityName?.isSome = true ∨ ∀ v, f p ≠ some (.const v p.type)) :
    nonNull model Γ ((Expr.param p).fill f) = nonNull model Γ (.param p) := by
  rcases hf.fill_param_cases p with hp | ⟨hp, ⟨v, hv, hfill⟩ | ⟨name, hname, hfill⟩⟩
  · rw [hp]
  · have hentity : p.type.entityName?.isSome = true := by
      rcases h with h | h
      · exact h
      · rw [fill_param] at hfill
        cases hfp : f p with
        | none =>
          rw [hfp] at hfill
          cases hfill
        | some x =>
          rw [hfp] at hfill
          cases hfill
          exact absurd hfp (h v)
    rw [hfill, nonNull_literal hv, nonNull, hentity, isOptional_eq_false hΓ hp]
    rfl
  · have hnone : Γ.isOptional ⟨name, p.type⟩ = false := isOptional_eq_false hΓ hname
    rw [hfill, nonNull, nonNull, isOptional_eq_false hΓ hp, hnone]

/-- Apart from placeholders for literals, filling in does not change what is known not to be null. -/
theorem nonNull_fill (hf : StandIns f) (hΓ : BindsUnreserved Γ)
    (h : ∀ p v, e = .param p → p.type.entityName? = none → f p ≠ some (.const v p.type)) :
    nonNull model Γ (e.fill f) = nonNull model Γ e := by
  induction e using childInduction with
  | step e ih =>
    cases e with
    | param p =>
      refine nonNull_fill_param hf hΓ ?_
      cases hentity : p.type.entityName? with
      | none => exact .inr fun v => h p v rfl hentity
      | some entity => exact .inl rfl
    | member target name type =>
      rw [fill_member, nonNull, nonNull, hf.type_fill]
      cases hentity : target.type.entityName? with
      | none => rfl
      | some entity =>
        -- The target has an entity type, so it is no placeholder that matters.
        have htarget := ih target (by simp [children]) fun p v htarget hnone => by
          rw [htarget] at hentity
          exact absurd (hnone.symm.trans hentity) (by simp)
        rw [htarget]
    | const v type => rw [fill_const]
    | _ => simp [nonNull]

theorem Thinned.nonNull (hf : StandIns f) (hΓ : BindsUnreserved Γ) {r : Expr} (h : Thinned f e r)
    (he : nonNull model Γ e = true) :
    nonNull model Γ r = true ∧ r.type.entityName? = e.type.entityName? := by
  induction e using childInduction generalizing r with
  | step e ih =>
    cases e with
    | const v type =>
      rw [h.const]
      exact ⟨he, rfl⟩
    | param p =>
      obtain ⟨cs, hlen, -, rfl⟩ := h.of_kindName (by simp [kindName])
      cases List.eq_nil_of_length_eq_zero hlen
      have hchildren : ((Expr.param p).fill f).setChildren [] = (Expr.param p).fill f := by
        have hnil : ((Expr.param p).fill f).children = [] := hf.children_fill _
        rw [← hnil, setChildren_children]
      have hentity : p.type.entityName?.isSome = true := by
        rw [NullGuard.nonNull, Bool.and_eq_true] at he
        exact he.1
      rw [hchildren, nonNull_fill_param hf hΓ (.inl hentity), hf.type_fill]
      exact ⟨he, rfl⟩
    | object members =>
      obtain ⟨cs, -, -, rfl⟩ := h.of_kindName (by simp [kindName])
      rw [fill_object]
      exact ⟨rfl, rfl⟩
    | member target name type =>
      obtain ⟨target', rfl, htarget⟩ := h.member
      rw [NullGuard.nonNull, Bool.and_eq_true] at he
      obtain ⟨htarget', hentity⟩ := ih target (by simp [children]) htarget he.2
      rw [NullGuard.nonNull, htarget', hentity, he.1]
      exact ⟨rfl, rfl⟩
    | _ => simp [NullGuard.nonNull] at he

/-- What a test compares with null is found in the thinned test, if it is there to be seen. -/
theorem Thinned.nullTest? (hf : StandIns f) {test test' checked : Expr} {holds : Bool}
    (h : Thinned f test test') (hkind : checked.kindName ≠ "Conditional")
    (hnull : checked.isNullConstant = false) (htest : nullTest? test = some (checked, holds)) :
    ∃ checked', nullTest? test' = some (checked', holds) ∧ Thinned f checked checked' := by
  cases test with
  | unary op operand =>
    obtain ⟨operand', rfl, hoperand⟩ := h.unary
    cases op with
    | isNull | isNotNull =>
      cases htest
      exact ⟨operand', rfl, hoperand⟩
    | _ => cases htest
  | binary op left right =>
    obtain ⟨left', right', rfl, hleft, hright⟩ := h.binary
    -- Equality and inequality are taken apart in the same way.
    have hsides : ∀ flag : Bool,
        (if right.isNullConstant then some (left, flag)
          else if left.isNullConstant then some (right, flag) else none) = some (checked, holds) →
        ∃ checked', (if right'.isNullConstant then some (left', flag)
          else if left'.isNullConstant then some (right', flag) else none) =
            some (checked', holds) ∧ Thinned f checked checked' := by
      intro flag hchecked
      split at hchecked
      · rename_i hnullRight
        cases hchecked
        exact ⟨left', by rw [if_pos (hright.isNullConstant hnullRight)], hleft⟩
      · split at hchecked
        · rename_i hnullLeft
          cases hchecked
          have hnullRight : right'.isNullConstant = false :=
            (hright.isNullConstant_eq hf hkind).trans hnull
          refine ⟨right', ?_, hright⟩
          rw [if_neg (by simp [hnullRight]), if_pos (hleft.isNullConstant hnullLeft)]
        · cases hchecked
    cases op with
    | eq => exact hsides true htest
    | notEq => exact hsides false htest
    | _ => cases htest
  | _ => cases htest

theorem Thinned.guarded? (hf : StandIns f) {test test' whenTrue whenTrue' whenFalse whenFalse'
    checked value : Expr} (htest : Thinned f test test') (htrue : Thinned f whenTrue whenTrue')
    (hfalse : Thinned f whenFalse whenFalse') (hkind : checked.kindName ≠ "Conditional")
    (hnull : checked.isNullConstant = false)
    (h : guarded? test whenTrue whenFalse = some (checked, value)) :
    ∃ checked' value', guarded? test' whenTrue' whenFalse' = some (checked', value') ∧
      Thinned f checked checked' ∧ Thinned f value value' := by
  unfold NullGuard.guarded? at h
  split at h
  · rename_i found hfound
    split at h
    · rename_i hnullTrue
      cases h
      obtain ⟨checked', htest', hchecked⟩ := htest.nullTest? hf hkind hnull hfound
      refine ⟨checked', whenFalse', ?_, hchecked, hfalse⟩
      rw [NullGuard.guarded?, htest']
      exact if_pos (htrue.isNullConstant hnullTrue)
    · cases h
  · rename_i found hfound
    split at h
    · rename_i hnullFalse
      cases h
      obtain ⟨checked', htest', hchecked⟩ := htest.nullTest? hf hkind hnull hfound
      refine ⟨checked', whenTrue', ?_, hchecked, htrue⟩
      rw [NullGuard.guarded?, htest']
      exact if_pos (hfalse.isNullConstant hnullFalse)
    · cases h
  · cases h

theorem nullTest?_fill (hf : StandIns f) (test : Expr) :
    nullTest? (test.fill f) = (nullTest? test).map fun t => (t.1.fill f, t.2) := by
  cases test with
  | unary op operand => cases op <;> simp [NullGuard.nullTest?]
  | binary op left right =>
    rw [fill_binary]
    cases op with
    | eq | notEq =>
      simp only [nullTest?, hf.isNullConstant_fill]
      split
      · rfl
      · split <;> rfl
    | _ => rfl
  | param p =>
    exact hf.of_fill_param (P := fun x => nullTest? x = none) (fun _ => rfl) fun _ _ => rfl
  | _ => simp [nullTest?]

theorem guarded?_fill (hf : StandIns f) (test whenTrue whenFalse : Expr) :
    guarded? (test.fill f) (whenTrue.fill f) (whenFalse.fill f) =
      (guarded? test whenTrue whenFalse).map fun g => (g.1.fill f, g.2.fill f) := by
  unfold guarded?
  rw [nullTest?_fill hf]
  cases nullTest? test with
  | none => rfl
  | some t =>
    obtain ⟨checked, holds⟩ := t
    cases holds with
    | true | false =>
      simp only [Option.map_some, hf.isNullConstant_fill]
      split <;> rfl

theorem kindName_of_nonNull (h : nonNull model Γ e = true) :
    e.kindName ≠ "Conditional" ∧ e.isNullConstant = false := by
  cases e with
  | const v type =>
    refine ⟨by simp [kindName], ?_⟩
    cases v with
    | scalar v => simpa [nonNull, isNullConstant, Constant.isNull] using h
    | _ => rfl
  | cond => simp [nonNull] at h
  | _ => exact ⟨by simp [kindName], rfl⟩

theorem branching_fill (hf : StandIns f) (e : Expr) : branching (e.fill f) = branching e := by
  induction e using childInduction with
  | step e ih =>
    cases e with
    | cond test whenTrue whenFalse type =>
      rw [fill_cond, branching, branching, ih whenTrue (by simp [children]),
        ih whenFalse (by simp [children])]
    | _ =>
      rw [branching_of_kindName (hf.kindName_fill_ne (by decide) (by simp [kindName])),
        branching_of_kindName (by simp [kindName])]

theorem Thinned.branching_le (hf : StandIns f) {r : Expr} (h : Thinned f e r) :
    branching r ≤ branching e := by
  induction h with
  | @node e cs _ hlen _ ih =>
    cases e with
    | cond test whenTrue whenFalse type =>
      obtain ⟨test', whenTrue', whenFalse', rfl⟩ := exists_of_length_three hlen
      have htrue := ih (whenTrue, whenTrue') (by simp [children])
      have hfalse := ih (whenFalse, whenFalse') (by simp [children])
      rw [fill_cond, setChildren, branching, branching]
      dsimp only at htrue hfalse
      omega
    | _ =>
      rw [branching_of_kindName]
      · exact Nat.zero_le _
      · rw [kindName_setChildren]
        exact hf.kindName_fill_ne (by decide) (by simp [kindName])
  | cut hbranch _ _ ih =>
    rw [branching]
    rcases hbranch with rfl | rfl <;> omega

/-- A tree without guards of literals is only filled in, and only such a tree is. -/
theorem Thinned.eq_fill_iff (hf : StandIns f) {r : Expr} (h : Thinned f e r) :
    r = e.fill f ↔ ∀ n ∈ e.nodes, ¬ LiteralGuard f n := by
  induction h with
  | @node e cs hroot hlen hcs ih =>
    have hnodes : (∀ n ∈ e.nodes, ¬ LiteralGuard f n) ↔
        ∀ c ∈ e.children, ∀ n ∈ c.nodes, ¬ LiteralGuard f n := by
      have hall := everywhere_iff (Q := fun n => ¬ LiteralGuard f n) (e := e)
      simpa [Everywhere, hroot] using hall
    have hsame : (e.fill f).setChildren cs = e.fill f ↔ cs = e.children.map (fill f) := by
      rw [← hf.children_fill]
      refine ⟨eq_children_of_setChildren_eq (by simpa [hf.children_fill] using hlen), ?_⟩
      rintro rfl
      exact setChildren_children _
    rw [hsame, hnodes]
    constructor
    · rintro rfl c hc
      obtain ⟨i, hi, rfl⟩ := List.getElem_of_mem hc
      refine (ih (e.children[i], e.children[i].fill f) ?_).mp rfl
      exact List.mem_iff_getElem.mpr ⟨i, by simpa using hi, by simp⟩
    · intro hnone
      have hforall : List.Forall₂ (fun c c' => True ∧ c' = c.fill f) e.children cs :=
        List.forall₂_iff_zip.mpr ⟨hlen.symm, fun {c c'} hp =>
          ⟨trivial, (ih (c, c') hp).mpr (hnone c (List.of_mem_zip hp).1)⟩⟩
      exact (eq_map_of_forall₂ hforall).2
  | @cut test whenTrue whenFalse branch r type hbranch hliteral hthinned ih =>
    constructor
    · rintro rfl
      -- The branch has fewer conditionals above each other than the conditional has.
      have hle := hthinned.branching_le hf
      rw [branching_fill hf, branching] at hle
      rcases hbranch with rfl | rfl <;> omega
    · intro hnone
      obtain ⟨n, hn, hguard⟩ := hliteral
      exact absurd hguard (hnone n hn)

theorem endsInDefault_fill (hf : StandIns f) (e : Expr) :
    endsInDefault (e.fill f) = endsInDefault e := by
  induction e using childInduction with
  | step e ih =>
    cases e with
    | quote inner => simp [endsInDefault, ih inner (by simp [children])]
    | lambda params body => simp [endsInDefault, ih body (by simp [children])]
    | call m receiver args type =>
      rcases args with _ | ⟨source, _ | ⟨second, rest⟩⟩
      · simp [endsInDefault]
      · simp [endsInDefault, ih source (by simp [children])]
      · simp [endsInDefault]
    | param p =>
      refine hf.of_fill_param (P := fun x => endsInDefault x = endsInDefault (.param p))
        (fun _ => ?_) fun _ _ => ?_
      · simp [endsInDefault]
      · simp [endsInDefault]
    | _ => simp [endsInDefault]

theorem optionalRowChild?_fill (hf : StandIns f) (e : Expr) :
    optionalRowChild? (e.fill f) = optionalRowChild? e := by
  cases e with
  | call m receiver args type =>
    have harg : optionalRowArg? m (args.map (fill f)) = optionalRowArg? m args := by
      unfold optionalRowArg?
      rw [List.length_map]
      rcases args with _ | ⟨source, _ | ⟨collection, _ | ⟨third, _ | ⟨fourth, rest⟩⟩⟩⟩
      · rfl
      · rfl
      · rfl
      · simp [endsInDefault_fill hf]
      · rfl
    have hlen : (receiver.map (fill f)).toList.length = receiver.toList.length := by
      cases receiver <;> rfl
    rw [fill_call, optionalRowChild?, optionalRowChild?, harg, hlen]
  | param p =>
    exact hf.of_fill_param (P := fun x => optionalRowChild? x = none) (fun _ => rfl)
      fun _ _ => rfl
  | _ => simp [optionalRowChild?]

/-- A child has the same scope in the tree filled in. -/
theorem inner_fill (hf : StandIns f) (place : Scope × Option Nat) (e : Expr) (i : Nat) :
    inner place (e.fill f) i = inner place e i := by
  obtain ⟨Γ, optional⟩ := place
  cases e with
  | quote | lambda => simp [inner]
  | param p =>
    exact hf.of_fill_param (P := fun x => inner (Γ, optional) x i =
      inner (Γ, optional) (.param p) i) (fun _ => rfl) fun _ _ => rfl
  | call m receiver args type =>
    have hchild := optionalRowChild?_fill hf (.call m receiver args type)
    rw [fill_call] at hchild ⊢
    rw [inner, inner, hchild]
    all_goals simp
  | _ => simp [inner, optionalRowChild?]

theorem bindsUnreserved_inner (hΓ : BindsUnreserved Γ) (he : e.Clean) (i : Nat) :
    BindsUnreserved (inner (Γ, optional) e i).1 := by
  cases e with
  | lambda params body => exact hΓ.bind (clean_lambda.mp he).1 _
  | _ => exact hΓ

section Unguard

variable {test test' whenTrue whenTrue' whenFalse whenFalse' : Expr}

/-- If the conditional guarded a literal, then with the literal put in it would be cut. -/
theorem Thinned.not_literalGuard (hf : StandIns f) (htest : Thinned f test test')
    (htrue : Thinned f whenTrue whenTrue') (hfalse : Thinned f whenFalse whenFalse')
    {type : DataType}
    (hkept : ∀ checked value,
      NullGuard.guarded? test' whenTrue' whenFalse' = some (checked, value) →
        NullGuard.nonNull model Γ checked = false) :
    ¬ LiteralGuard f (cond test whenTrue whenFalse type) := by
  rintro ⟨p, value, hguarded, -, v, hp⟩
  obtain ⟨checked', value', hguarded', hchecked, -⟩ :=
    htest.guarded? hf htrue hfalse (by simp [kindName]) rfl hguarded
  obtain ⟨cs, hlen, -, rfl⟩ := hchecked.of_kindName (by simp [kindName])
  cases List.eq_nil_of_length_eq_zero hlen
  have hfill : (Expr.param p).fill f = .const v p.type := by rw [fill_param, hp]; rfl
  obtain ⟨-, ⟨w, hw, hliteral⟩ | ⟨name, -, hrenamed⟩⟩ := hf p _ hp
  · cases hliteral
    have hnull := hkept _ _ hguarded'
    rw [hfill] at hnull
    exact absurd (nonNull_literal hw p.type) (by simpa [setChildren] using hnull)
  · cases hrenamed

/-- If a conditional stays, and is cut once its parts are thinned, then there is a guard of a
literal in it. -/
theorem Thinned.exists_literalGuard (hf : StandIns f) (hΓ : BindsUnreserved Γ)
    (htest : Thinned f test test') (htrue : Thinned f whenTrue whenTrue')
    (hfalse : Thinned f whenFalse whenFalse') {type : DataType} {checked' value' : Expr}
    (hkept : ∀ checked value,
      NullGuard.guarded? test whenTrue whenFalse = some (checked, value) →
        NullGuard.nonNull model Γ checked = false)
    (hguarded' : NullGuard.guarded? test' whenTrue' whenFalse' = some (checked', value'))
    (hnonNull' : NullGuard.nonNull model Γ checked' = true) :
    ∃ n ∈ (cond test whenTrue whenFalse type).nodes, LiteralGuard f n := by
  by_contra hnone
  have hnone : ∀ n ∈ (cond test whenTrue whenFalse type).nodes, ¬ LiteralGuard f n :=
    fun n hn hguard => hnone ⟨n, hn, hguard⟩
  have hchild : ∀ c ∈ (cond test whenTrue whenFalse type).children, ∀ n ∈ c.nodes,
      ¬ LiteralGuard f n := fun c hc n hn => Everywhere.child hnone hc n hn
  -- Without such a guard, thinning is filling in, and what is checked is not a literal.
  cases (htest.eq_fill_iff hf).mpr (hchild test (by simp [children]))
  cases (htrue.eq_fill_iff hf).mpr (hchild whenTrue (by simp [children]))
  cases (hfalse.eq_fill_iff hf).mpr (hchild whenFalse (by simp [children]))
  rw [guarded?_fill hf] at hguarded'
  obtain ⟨⟨checked, value⟩, hguarded, heq⟩ := Option.map_eq_some_iff.mp hguarded'
  cases heq
  have hsame : NullGuard.nonNull model Γ (checked.fill f) = NullGuard.nonNull model Γ checked :=
    nonNull_fill hf hΓ fun p v hp hentity hfp =>
      Everywhere.root hnone ⟨p, value, hp ▸ hguarded, hentity, v, hfp⟩
  rw [hnonNull', hkept checked value hguarded] at hsame
  cases hsame

/-- What a conditional becomes with its parts thinned. -/
theorem Thinned.unguard (hf : StandIns f) (hΓ : BindsUnreserved Γ) (htest : Thinned f test test')
    (htrue : Thinned f whenTrue whenTrue') (hfalse : Thinned f whenFalse whenFalse')
    (type : DataType) :
    Thinned f (NullGuard.unguard model Γ test whenTrue whenFalse type)
      (NullGuard.unguard model Γ test' whenTrue' whenFalse' type) := by
  rcases unguard_eq model Γ test whenTrue whenFalse type with
    ⟨hkept, hnull⟩ | ⟨checked, value, hguarded, hnonNull, -, hcut⟩
  · rw [hkept]
    rcases unguard_eq model Γ test' whenTrue' whenFalse' type with
      ⟨hkept', hnull'⟩ | ⟨checked', value', hguarded', hnonNull', hvalue', hcut'⟩
    · rw [hkept']
      have hroot : ¬ LiteralGuard f (cond test whenTrue whenFalse type) :=
        htest.not_literalGuard hf htrue hfalse hnull'
      have hnode : Thinned f (cond test whenTrue whenFalse type)
          (((cond test whenTrue whenFalse type).fill f).setChildren
            [test', whenTrue', whenFalse']) := by
        refine .node hroot rfl ?_
        simpa [children] using ⟨htest, htrue, hfalse⟩
      rwa [fill_cond] at hnode
    · rw [hcut']
      -- The guard is kept here and cut there, so a literal has been put into it.
      have hliteral : ∃ n ∈ (cond test whenTrue whenFalse type).nodes, LiteralGuard f n :=
        htest.exists_literalGuard hf hΓ htrue hfalse hnull hguarded' hnonNull'
      rcases hvalue' with rfl | rfl
      · exact .cut (.inl rfl) hliteral htrue
      · exact .cut (.inr rfl) hliteral hfalse
  · -- What is known not to be null here is known not to be null there.
    obtain ⟨hkind, hnotNull⟩ := kindName_of_nonNull hnonNull
    obtain ⟨checked', value', hguarded', hchecked, hvalue⟩ :=
      htest.guarded? hf htrue hfalse hkind hnotNull hguarded
    have hnonNull' := (hchecked.nonNull hf hΓ hnonNull).1
    have hcut' : NullGuard.unguard model Γ test' whenTrue' whenFalse' type = value' := by
      rw [NullGuard.unguard, hguarded']
      exact if_pos hnonNull'
    rw [hcut, hcut']
    exact hvalue

end Unguard

/-- Thinned children may be put into a node that is no conditional, on both sides. -/
theorem Thinned.setChildren (hf : StandIns f) {cs cs' : List Expr}
    (hkind : e.kindName ≠ "Conditional") (hcs : cs.length = e.children.length)
    (hcs' : cs'.length = e.children.length) (hzip : ∀ p ∈ cs.zip cs', Thinned f p.1 p.2) :
    Thinned f (e.setChildren cs) ((e.fill f).setChildren cs') := by
  have hset : (e.fill f).setChildren cs' = ((e.setChildren cs).fill f).setChildren cs' := by
    rw [hf.fill_setChildren hcs, setChildren_setChildren]
    · simpa [hf.children_fill] using hcs
    · simpa [hf.children_fill] using hcs'
  rw [hset]
  refine .node (not_literalGuard_of_kindName (by rwa [kindName_setChildren])) ?_ ?_
  · rw [children_setChildren hcs, hcs', hcs]
  · rwa [children_setChildren hcs]

/-- Removal from a tree filled in thins what removal from the tree gives, if nothing in scope is a
placeholder. -/
theorem thinned_remove (hf : StandIns f) (hΓ : BindsUnreserved Γ) (he : e.Clean) :
    Thinned f (remove model Γ optional e) (remove model Γ optional (e.fill f)) := by
  induction e using childInduction generalizing Γ optional with
  | step e ih =>
    have hother : e.kindName ≠ "Conditional" →
        Thinned f (remove model Γ optional e) (remove model Γ optional (e.fill f)) := by
      intro hkind
      have hkind' := hf.kindName_fill_ne (by decide) hkind
      rw [remove_of_kindName hkind, remove_of_kindName hkind', hf.children_fill,
        List.zipIdx_map, List.map_map]
      refine Thinned.setChildren hf hkind (by simp) (by simp) ?_
      rw [List.zip_map']
      intro p hp
      obtain ⟨c, hc, rfl⟩ := List.mem_map.mp hp
      have hchild : c.1 ∈ e.children := List.fst_mem_of_mem_zipIdx hc
      dsimp only [Function.comp, Prod.map]
      rw [inner_fill hf]
      exact ih c.1 hchild (bindsUnreserved_inner hΓ he c.2) (he.child hchild)
    cases e with
    | cond test whenTrue whenFalse type =>
      have hpart : ∀ c ∈ (cond test whenTrue whenFalse type).children,
          Thinned f (remove model Γ none c) (remove model Γ none (c.fill f)) :=
        fun c hc => ih c hc hΓ (he.child hc)
      have htest := hpart test (by simp [children])
      have htrue := hpart whenTrue (by simp [children])
      have hfalse := hpart whenFalse (by simp [children])
      rw [fill_cond, remove, remove]
      exact htest.unguard hf hΓ htrue hfalse type
    | _ => exact hother (by simp [kindName])

/-- Removal commutes with filling in exactly if it leaves no guard of a literal. -/
theorem run_fill_iff (hf : StandIns f) (he : e.Clean) :
    run model (e.fill f) = (run model e).fill f ↔
      ∀ n ∈ (run model e).nodes, ¬ LiteralGuard f n :=
  (thinned_remove hf (fun _ hb => absurd hb List.not_mem_nil) he).eq_fill_iff hf

end QueryLowering.Pass.NullGuard
