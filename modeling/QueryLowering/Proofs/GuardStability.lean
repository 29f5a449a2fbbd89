import QueryLowering.Proofs.GuardPlaces
import QueryLowering.Proofs.Settled.NullGuard

/-!
Removing null guards a second time changes nothing. Which rows may be missing is read off a call
before its arguments are rewritten, so the second removal may take more rows for rows that may be
missing than the first did: where a guard around a collection with a default row has been dropped, the
default row has come to light. It never takes fewer, and so it knows no more than the first removal
did of what is not null.
-/

namespace QueryLowering.Pass.NullGuard

open QueryLowering.Expr StateStep

variable {model : Model} {Γ Δ : Scope} {optional : Option Nat} {place place' : Scope × Option Nat}
  {e : Expr}

/-- Whatever row may be missing at the first place may be missing at the second. -/
structure DoubtedBy (place place' : Scope × Option Nat) : Prop where
  scope : ∀ p, place.1.isOptional p = true → place'.1.isOptional p = true
  optional : ∀ i, place.2 = some i → place'.2 = some i

theorem DoubtedBy.refl (place : Scope × Option Nat) : DoubtedBy place place :=
  ⟨fun _ => id, fun _ => id⟩

theorem isOptional_bind (Γ : Scope) (params : List Param) (optional : Option Nat) (p : Param) :
    (Γ.bind params optional).isOptional p =
      match params.zipIdx.reverse.find? fun b => b.1.name == p.name with
      | some b => decide (optional = some b.2)
      | none => Γ.isOptional p := by
  unfold Scope.isOptional Scope.bind
  rw [List.find?_append, ← List.map_reverse, List.find?_map]
  change ((Option.map _ (params.zipIdx.reverse.find? fun b => b.1.name == p.name)).or _).any _ = _
  cases params.zipIdx.reverse.find? fun b => b.1.name == p.name <;> rfl

theorem DoubtedBy.bind (h : DoubtedBy place place') (params : List Param) :
    DoubtedBy (place.1.bind params place.2, none) (place'.1.bind params place'.2, none) := by
  refine ⟨fun p hp => ?_, fun i hi => hi⟩
  rw [isOptional_bind] at hp ⊢
  cases hbound : params.zipIdx.reverse.find? fun b => b.1.name == p.name with
  | none =>
    rw [hbound] at hp
    exact h.scope p hp
  | some b =>
    rw [hbound] at hp
    exact decide_eq_true (h.optional b.2 (of_decide_eq_true hp))

/-- Where more rows may be missing, less is known not to be null. -/
theorem nonNull_of_doubtedBy (h : DoubtedBy place place') (he : nonNull model place'.1 e = true) :
    nonNull model place.1 e = true := by
  induction e using childInduction with
  | step e ih =>
    cases e with
    | param p =>
      rw [nonNull, Bool.and_eq_true, Bool.not_eq_true'] at he ⊢
      refine ⟨he.1, Bool.eq_false_iff.mpr fun hp => ?_⟩
      exact Bool.eq_false_iff.mp he.2 (h.scope p hp)
    | member target name type =>
      rw [nonNull, Bool.and_eq_true] at he ⊢
      exact ⟨he.1, ih target (by simp [children]) he.2⟩
    | const v type => cases v <;> exact he
    | _ => exact he

/-- A call stays a call of the same method, and guards are removed from its receiver and arguments. -/
theorem remove_call (model : Model) (Γ : Scope) (optional : Option Nat) (m : Method)
    (receiver : Option Expr) (args : List Expr) (type : DataType) :
    ∃ receiver' args', remove model Γ optional (.call m receiver args type) =
        .call m receiver' args' type ∧
      receiver'.toList.length = receiver.toList.length ∧
      List.Forall₂ (fun a a' => ∃ optional', a' = remove model Γ optional' a) args args' := by
  have hargs : ∀ (row : Nat → Option Nat) (n : Nat),
      List.Forall₂ (fun a a' => ∃ optional', a' = remove model Γ optional' a) args
        ((args.zipIdx n).map fun a => remove model Γ (row a.2) a.1) := by
    intro row n
    rw [List.forall₂_map_right_iff]
    have hself : List.Forall₂ (fun a b => a = b.1) args (args.zipIdx n) := by
      rw [← List.forall₂_map_right_iff, List.zipIdx_map_fst]
      exact List.forall₂_same.mpr fun a _ => rfl
    exact hself.imp fun a b hab => ⟨row b.2, hab ▸ rfl⟩
  rw [remove_of_kindName (by simp [kindName])]
  let row (i : Nat) : Option Nat := (inner (Γ, optional) (.call m receiver args type) i).2
  cases receiver with
  | none => exact ⟨none, _, rfl, rfl, hargs row 0⟩
  | some r => exact ⟨some _, _, rfl, rfl, hargs row 1⟩

/-- A collection that ends in a default row still does after removal. -/
theorem EndsInDefault.remove (h : EndsInDefault e) :
    EndsInDefault (remove model Γ optional e) := by
  induction h generalizing Γ optional with
  | @default m receiver args type hname =>
    obtain ⟨receiver', args', hcall, -, -⟩ := remove_call model Γ optional m receiver args type
    rw [hcall]
    exact .default hname
  | @converted m receiver source type hname _ ih =>
    obtain ⟨receiver', args', hcall, -, hargs⟩ :=
      remove_call model Γ optional m receiver [source] type
    obtain ⟨_, _, ⟨optional', rfl⟩, hnil, rfl⟩ := List.forall₂_cons_left_iff.mp hargs
    cases List.forall₂_nil_left_iff.mp hnil
    rw [hcall]
    exact .converted hname ih
  | lambda _ ih =>
    rw [NullGuard.remove]
    exact .lambda ih
  | quote _ ih =>
    rw [NullGuard.remove]
    exact .quote ih

/-- A result selector that takes a row that may be missing stays one if collections that end in a
default row do. -/
theorem Argument.IsOuterSelector.of_forall₂ {m : Method} {args args' : List Expr} {i : Nat}
    (h : Argument.IsOuterSelector ⟨m, args, i⟩)
    (hargs : List.Forall₂ (fun a a' => EndsInDefault a → EndsInDefault a') args args') :
    Argument.IsOuterSelector ⟨m, args', i⟩ := by
  cases h with
  | leftJoin howner hname hlength => exact .leftJoin howner hname (hargs.length_eq ▸ hlength)
  | selectMany howner hname hdefault =>
    obtain ⟨_, _, -, hrest, rfl⟩ := List.forall₂_cons_left_iff.mp hargs
    obtain ⟨_, _, hcollection, hselector, rfl⟩ := List.forall₂_cons_left_iff.mp hrest
    obtain ⟨_, _, -, hnil, rfl⟩ := List.forall₂_cons_left_iff.mp hselector
    cases List.forall₂_nil_left_iff.mp hnil
    exact .selectMany howner hname (hcollection hdefault)

theorem optionalRowChild?_remove {i : Nat} (h : optionalRowChild? e = some i) :
    optionalRowChild? (remove model Γ optional e) = some i := by
  cases e with
  | call m receiver args type =>
    obtain ⟨receiver', args', hcall, hreceiver, hargs⟩ :=
      remove_call model Γ optional m receiver args type
    obtain ⟨j, hj, rfl⟩ := Option.map_eq_some_iff.mp h
    have hdefault : List.Forall₂ (fun a a' => EndsInDefault a → EndsInDefault a') args args' := by
      refine hargs.imp ?_
      rintro a _ ⟨optional', rfl⟩ ha
      exact ha.remove
    have hselector := (optionalRowArg?_eq_some_iff.mp hj).of_forall₂ hdefault
    rw [hcall, optionalRowChild?, optionalRowArg?_eq_some_iff.mpr hselector, hreceiver]
    rfl
  | _ => cases h

theorem inner_of_kindName (hquote : e.kindName ≠ "Quote") (hlambda : e.kindName ≠ "Lambda")
    (i : Nat) :
    inner place e i = (place.1, if optionalRowChild? e = some i then some 1 else none) := by
  cases e with
  | quote => exact absurd rfl hquote
  | lambda => exact absurd rfl hlambda
  | _ => rfl

theorem kindName_remove (h : e.kindName ≠ "Conditional") :
    (remove model Γ optional e).kindName = e.kindName := by
  rw [remove_of_kindName h, kindName_setChildren]

/-- The place of a child is doubted by the place that the child has after removal. -/
theorem DoubtedBy.inner (h : DoubtedBy (Γ, optional) place') (hkind : e.kindName ≠ "Conditional")
    (i : Nat) :
    DoubtedBy (inner (Γ, optional) e i) (inner place' (remove model Γ optional e) i) := by
  have hother : e.kindName ≠ "Quote" → e.kindName ≠ "Lambda" →
      DoubtedBy (NullGuard.inner (Γ, optional) e i)
        (NullGuard.inner place' (remove model Γ optional e) i) := by
    intro hquote hlambda
    have hkind' : (remove model Γ optional e).kindName = e.kindName := kindName_remove hkind
    rw [inner_of_kindName hquote hlambda, inner_of_kindName (hkind' ▸ hquote) (hkind' ▸ hlambda)]
    refine ⟨h.scope, fun j hj => ?_⟩
    dsimp only at hj ⊢
    split at hj
    · rename_i hchild
      rwa [if_pos (optionalRowChild?_remove hchild)]
    · cases hj
  cases e with
  | cond => exact absurd rfl hkind
  | quote inner =>
    rw [remove]
    exact h
  | lambda params body =>
    rw [remove]
    exact h.bind params
  | _ => exact hother (by simp [kindName]) (by simp [kindName])

/-- A guard that is left because of what may be missing is left where as much may be missing or
more. -/
theorem settled_unguard {test whenTrue whenFalse : Expr} {type : DataType}
    (h : DoubtedBy (Γ, optional) place') (htest : Settled model place'.1 none test)
    (htrue : ∀ optional', Settled model place'.1 optional' whenTrue)
    (hfalse : ∀ optional', Settled model place'.1 optional' whenFalse) :
    Settled model place'.1 place'.2 (unguard model Γ test whenTrue whenFalse type) := by
  rcases unguard_eq model Γ test whenTrue whenFalse type with
    ⟨hkept, hnull⟩ | ⟨checked, value, -, -, rfl | rfl, hcut⟩
  · rw [hkept]
    refine everywhereIn_iff.mpr ⟨?_, ?_⟩
    · rcases unguard_eq model place'.1 test whenTrue whenFalse type with
        ⟨hkept', -⟩ | ⟨checked, value, hguarded, hnonNull, -, -⟩
      · exact hkept'
      · -- What is known not to be null there is known not to be null here.
        have hsure : nonNull model Γ checked = true := nonNull_of_doubtedBy h hnonNull
        rw [hnull checked value hguarded] at hsure
        cases hsure
    · simpa [children, inner, optionalRowChild?] using ⟨htest, htrue none, hfalse none⟩
  · rw [hcut]
    exact htrue _
  · rw [hcut]
    exact hfalse _

/-- Where as many rows may be missing or more, no guard that removal has left can be dropped. -/
theorem settled_remove (h : DoubtedBy (Γ, optional) place') :
    Settled model place'.1 place'.2 (remove model Γ optional e) := by
  induction e using childInduction generalizing Γ optional place' with
  | step e ih =>
    have hother : e.kindName ≠ "Conditional" →
        Settled model place'.1 place'.2 (remove model Γ optional e) := by
      intro hkind
      refine everywhereIn_iff.mpr ⟨?_, ?_⟩
      · exact unguardNode_of_kindName (by rwa [kindName_remove hkind])
      · rintro ⟨c', i⟩ hc'
        -- The child at this position is what removal gives for a child of the tree.
        have hchild := List.mem_zipIdx_iff_getElem?.mp hc'
        dsimp only at hchild
        rw [remove_of_kindName hkind, children_setChildren (by simp), List.getElem?_map,
          List.getElem?_zipIdx, Option.map_map] at hchild
        obtain ⟨c, hc, rfl⟩ := Option.map_eq_some_iff.mp hchild
        simp only [Function.comp, Nat.zero_add]
        exact ih c (List.mem_of_getElem? hc) (h.inner hkind i)
    cases e with
    | cond test whenTrue whenFalse type =>
      have hpart : ∀ c ∈ (cond test whenTrue whenFalse type).children, ∀ optional',
          Settled model place'.1 optional' (remove model Γ none c) := by
        intro c hc optional'
        have hplace : DoubtedBy (Γ, none) (place'.1, optional') :=
          ⟨h.scope, fun i hi => by cases hi⟩
        exact ih c hc hplace
      rw [remove]
      exact settled_unguard h (hpart test (by simp [children]) none)
        (hpart whenTrue (by simp [children])) (hpart whenFalse (by simp [children]))
    | _ => exact hother (by simp [kindName])

/-- Removal of null guards succeeds on every tree, keeps the state, and gives a tree that it does not
change any more. -/
theorem removal_idempotent (ctx : Context) (e : Expr) :
    ∃ r, (∀ s, (nullGuard.run ctx e).Gives s r s) ∧ ∀ s, (nullGuard.run ctx r).Gives s r s := by
  have hsettled : Settled ctx.model [] none (NullGuard.run ctx.model e) :=
    settled_remove (.refl _)
  refine ⟨NullGuard.run ctx.model e, fun s => gives_pure.mpr ⟨rfl, rfl⟩, fun s => ?_⟩
  exact gives_pure.mpr ⟨hsettled.remove_eq_self.symm, rfl⟩

end QueryLowering.Pass.NullGuard
