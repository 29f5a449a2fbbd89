import QueryLowering.Proofs.Flattening
import QueryLowering.Proofs.Persistence.Rules

/-!
Quantifiers that ask for a value. Whether any element equals a value, or all elements differ from it,
is a matter of membership if the value is the same for every element. The rule tells this from the
references of the value, while the meaning of a lambda is a matter of substitution: a predicate
compares its element with a value if it becomes the comparison of `a` with this value for every `a`
that is put for its parameter. Both agree for all bodies, also for those with lambdas that hide the
parameter.
-/

namespace QueryLowering

namespace Expr

variable {x : Param} {e : Expr}

theorem lookup_single_of_ne {q : Param} (h : q ≠ x) (a : Expr) : List.lookup q [(x, a)] = none := by
  rw [List.lookup_cons, beq_false_of_ne h, List.lookup_nil]

theorem subst_binary (σ : Bindings) (op : BinaryOp) (left right : Expr) :
    subst σ (.binary op left right) = .binary op (subst σ left) (subst σ right) :=
  subst_eq_setChildren σ _ (by simp) (by simp)

/-- A parameter may stand for itself. -/
theorem subst_param_self (x : Param) (e : Expr) : subst [(x, param x)] e = e := by
  refine subst_eq_self_iff.mpr fun q _ => ?_
  by_cases hq : q = x
  · rw [hq, List.lookup_cons_self, Option.getD_some]
  · rw [lookup_single_of_ne hq, Option.getD_none]

/-- An expression stays as it is whatever is put for a parameter exactly if it does not refer to the
parameter. -/
theorem forall_subst_eq_self_iff : (∀ a, subst [(x, a)] e = e) ↔ references x e = false := by
  constructor
  · intro h
    -- A reference would tell the parameter from anything else that stands for it.
    refine Bool.eq_false_iff.mpr fun href => ?_
    have hsame : subst [(x, param x)] e = subst [(x, nullOf x.type)] e := (h _).trans (h _).symm
    have hx := subst_eq_subst_iff.mp hsame x href
    rw [List.lookup_cons_self, List.lookup_cons_self] at hx
    cases hx
  · intro h a
    refine subst_eq_self_iff.mpr fun q hq => ?_
    have hne : q ≠ x := by
      rintro rfl
      cases h.symm.trans hq
    rw [lookup_single_of_ne hne, Option.getD_none]

/-- What an expression becomes for every `a` tells how it is written: put the parameter itself. -/
theorem forall_subst_eq_iff {f : Expr → Expr} :
    (∀ a, subst [(x, a)] e = f a) ↔
      e = f (param x) ∧ ∀ a, subst [(x, a)] (f (param x)) = f a := by
  constructor
  · intro h
    have he : e = f (param x) := (subst_param_self x e).symm.trans (h (param x))
    exact ⟨he, he ▸ h⟩
  · rintro ⟨rfl, h⟩
    exact h

end Expr

open QueryLowering.Expr

namespace Pass.Membership

variable {e n r side body predicate source value : Expr} {x : Param} {name : String}
  {op : BinaryOp} {family : Family}

/-- Whatever is put for the parameter, the body compares it with the value. -/
def ComparesWith (op : BinaryOp) (x : Param) (body value : Expr) : Prop :=
  (∀ a, subst [(x, a)] body = .binary op a value) ∨
    ∀ a, subst [(x, a)] body = .binary op value a

theorem comparesWith_iff :
    ComparesWith op x body value ↔
      (body = .binary op (.param x) value ∨ body = .binary op value (.param x)) ∧
        references x value = false := by
  have hleft : ∀ a, subst [(x, a)] (.binary op (.param x) value) = .binary op a value ↔
      subst [(x, a)] value = value := by
    intro a
    simp [subst_binary]
  have hright : ∀ a, subst [(x, a)] (.binary op value (.param x)) = .binary op value a ↔
      subst [(x, a)] value = value := by
    intro a
    simp [subst_binary]
  rw [ComparesWith, forall_subst_eq_iff (f := fun a => .binary op a value),
    forall_subst_eq_iff (f := fun a => .binary op value a)]
  simp only [hleft, hright, forall_subst_eq_self_iff]
  exact or_and_right.symm

theorem comparedValue?_eq_some :
    comparedValue? x side value = some r ↔
      side = .param x ∧ references x value = false ∧ value = r := by
  unfold comparedValue?
  split
  · rename_i p
    split
    · rename_i h
      simp only [h.1, h.2, Option.some.injEq, true_and]
    · rename_i h
      simp only [reduceCtorEq, param.injEq, false_iff]
      rintro ⟨rfl, href, -⟩
      exact h ⟨rfl, href⟩
  · rename_i hparam
    simp only [reduceCtorEq, false_iff]
    rintro ⟨rfl, -⟩
    exact hparam x rfl

/-- The parameter is no value to compare it with. -/
theorem comparedValue?_param : comparedValue? x side (.param x) = none := by
  refine Option.eq_none_iff_forall_ne_some.mpr fun r h => ?_
  have href := (comparedValue?_eq_some.mp h).2.1
  rw [references_param, beq_self_eq_true] at href
  cases href

/-- The rule finds the value of a comparison exactly if there is one. -/
theorem soughtValue?_eq_some :
    soughtValue? op x body = some value ↔ ComparesWith op x body value := by
  rw [comparesWith_iff]
  unfold soughtValue?
  split
  · rename_i o left right
    split
    · rename_i ho
      subst ho
      rw [Option.or_eq_some_iff]
      constructor
      · rintro (h | ⟨-, h⟩)
        · obtain ⟨rfl, href, rfl⟩ := comparedValue?_eq_some.mp h
          exact ⟨.inl rfl, href⟩
        · obtain ⟨rfl, href, rfl⟩ := comparedValue?_eq_some.mp h
          exact ⟨.inr rfl, href⟩
      · rintro ⟨h | h, href⟩
        · cases h
          exact .inl (comparedValue?_eq_some.mpr ⟨rfl, href, rfl⟩)
        · cases h
          exact .inr ⟨comparedValue?_param, comparedValue?_eq_some.mpr ⟨rfl, href, rfl⟩⟩
    · rename_i ho
      simp only [reduceCtorEq, false_iff]
      rintro ⟨h | h, -⟩ <;> exact ho (binary.inj h).1
  · rename_i hbinary
    simp only [reduceCtorEq, false_iff]
    rintro ⟨rfl | rfl, -⟩ <;> exact hbinary _ _ _ rfl

theorem comparison?_eq_some :
    comparison? name = some op ↔ (name = "Any" ∧ op = .eq) ∨ (name = "All" ∧ op = .notEq) := by
  unfold comparison?
  split
  · rename_i hname
    subst hname
    simp [eq_comm]
  · rename_i hany
    split
    · rename_i hname
      subst hname
      simp [eq_comm]
    · rename_i hall
      simp [hany, hall]

/-- The predicate is a lambda over one value, and its body compares this value with another one. -/
def Compares (op : BinaryOp) (predicate value : Expr) : Prop :=
  ∃ x body, predicate.lambda? = some ([x], body) ∧ x.type.entityName? = none ∧
    ComparesWith op x body value

theorem quantified?_eq_some :
    quantified? name predicate = some (op, value) ↔
      comparison? name = some op ∧ Compares op predicate value := by
  unfold quantified?
  rw [Option.bind_eq_bind, Option.bind_eq_some_iff]
  constructor
  · rintro ⟨op', hop, h⟩
    split at h
    · rename_i x body hlambda
      split at h
      · cases h
      · rename_i hentity
        obtain ⟨value', hvalue, heq⟩ := Option.map_eq_some_iff.mp h
        cases heq
        exact ⟨hop, x, body, hlambda, by simpa using hentity, soughtValue?_eq_some.mp hvalue⟩
    · cases h
  · rintro ⟨hop, x, body, hlambda, hentity, hcompares⟩
    refine ⟨op, hop, ?_⟩
    simp [hlambda, hentity, soughtValue?_eq_some.mpr hcompares]

/-- A call that asks of the elements of a source how they compare with one value. -/
inductive Asks (name : String) (op : BinaryOp) : Expr → Family → Expr → Expr → Prop
  | mk {family : Family} {typeArgs : List DataType} {receiver : Option Expr}
      {source predicate value : Expr} {type : DataType} :
      Compares op predicate value →
      Asks name op (.call ⟨family.owner, name, typeArgs⟩ receiver [source, predicate] type)
        family source value

/-- The test whether a source contains a value. -/
def containsCall (family : Family) (source value : Expr) : Expr :=
  .call ⟨family.owner, "Contains", operatorTypeArgs [source, value]⟩ none [source, value] .boolean

/-- The test of membership that has the answer of the quantifier. -/
def answer (op : BinaryOp) (contains : Expr) : Expr :=
  if op = .notEq then .unary .not contains else contains

theorem result_of_contains :
    ∀ op ∈ Operator.all, op.name = "Contains" → op.result = .boolean := by
  decide

theorem callOperator_contains
    (h : callOperator family.owner "Contains" [source, value] = .ok r) :
    r = containsCall family source value := by
  obtain ⟨op, type, hop, htype, rfl⟩ := callOperator_eq_ok h
  obtain ⟨hmem, -, hname, -⟩ := Operator.find?_eq_some hop
  rw [Operator.resultType, result_of_contains op hmem hname] at htype
  cases htype
  rfl

/-- The rule applies to a quantifier that asks for a value. -/
theorem rule_of_asks (hop : comparison? name = some op) (h : Asks name op n family source value) :
    rule n = (callOperator family.owner "Contains" [source, value]).map (some ∘ answer op) := by
  cases h with
  | mk hcompares =>
    have hquantified := quantified?_eq_some.mpr ⟨hop, hcompares⟩
    unfold rule
    simp only [Family.isSome_ofOwner?_iff.mpr ⟨family, rfl⟩, hquantified]
    rfl

/-- The rule applies to nothing else. -/
theorem asks_of_rule (h : rule n = .ok (some r)) :
    ∃ name op family source value, comparison? name = some op ∧
      Asks name op n family source value ∧ r = answer op (containsCall family source value) := by
  unfold rule at h
  split at h
  · rename_i m receiver source predicate type
    split at h
    · rename_i hfamily
      split at h
      · rename_i op value hquantified
        obtain ⟨contains, hcontains, h⟩ := bind_eq_ok.mp h
        obtain ⟨family, hfamily⟩ := Family.isSome_ofOwner?_iff.mp hfamily
        obtain ⟨hop, hcompares⟩ := quantified?_eq_some.mp hquantified
        obtain ⟨owner, name, typeArgs⟩ := m
        cases hfamily
        cases callOperator_contains hcontains
        cases h
        exact ⟨name, op, family, source, value, hop, .mk hcompares, rfl⟩
      · cases h
    · cases h
  · cases h

/-- What the pass makes of a node whose children it has rewritten already. -/
inductive Becomes (n : Expr) : Expr → Prop
  | any {family : Family} {source value : Expr} :
      Asks "Any" .eq n family source value → Becomes n (containsCall family source value)
  | all {family : Family} {source value : Expr} :
      Asks "All" .notEq n family source value →
        Becomes n (.unary .not (containsCall family source value))
  | kept : (∀ family source value, ¬ Asks "Any" .eq n family source value ∧
      ¬ Asks "All" .notEq n family source value) → Becomes n n

theorem rule_ne_none_of_asks (hop : comparison? name = some op)
    (h : Asks name op n family source value) : rule n ≠ .ok none := by
  rw [rule_of_asks hop h]
  cases callOperator family.owner "Contains" [source, value] <;> nofun

theorem becomes_of_apply (h : rule.apply n = .ok r) : Becomes n r := by
  rcases Rule.apply_eq_ok.mp h with ⟨hnone, rfl⟩ | hsome
  · exact .kept fun _ _ _ => ⟨fun hany => rule_ne_none_of_asks rfl hany hnone,
      fun hall => rule_ne_none_of_asks rfl hall hnone⟩
  · obtain ⟨name, op, family, source, value, hop, hasks, rfl⟩ := asks_of_rule hsome
    rcases comparison?_eq_some.mp hop with ⟨rfl, rfl⟩ | ⟨rfl, rfl⟩
    · exact .any hasks
    · exact .all hasks

/-- A tree and what the pass makes of it, from the leaves to the root. -/
inductive Rewrites : Expr → Expr → Prop
  | node {e r : Expr} {cs : List Expr} :
      List.Forall₂ Rewrites e.children cs → Becomes (e.setChildren cs) r → Rewrites e r

theorem rewrites_of_run (h : run e = .ok r) : Rewrites e r := by
  induction e using childInduction generalizing r with
  | step e ih =>
    obtain ⟨cs, hcs, happly⟩ := bottomUp_eq_ok.mp h
    exact .node (forall₂_imp_of_mem hcs fun c hc d hd => ih c hc hd) (becomes_of_apply happly)

/-- A test of membership is no quantifier. -/
theorem rule_containsCall (family : Family) (source value : Expr) :
    rule (containsCall family source value) = .ok none := by
  have hnone : quantified? "Contains" value = none := by
    rw [quantified?, comparison?_contains]
    rfl
  simp only [containsCall, rule, hnone, ite_self]

theorem Asks.everywhere {Q : Expr → Prop} (hop : comparison? name = some op)
    (h : Asks name op n family source value) (hn : ∀ c ∈ n.children, c.Everywhere Q) :
    source.Everywhere Q ∧ value.Everywhere Q := by
  cases h with
  | mk hcompares =>
    refine ⟨hn _ (by simp [children]), ?_⟩
    exact everywhere_quantified? (hn _ (by simp [children]))
      (quantified?_eq_some.mpr ⟨hop, hcompares⟩)

/-- What is put in is made of parts of the node and of a test of membership. -/
theorem everywhere_none_of_rule (hn : ∀ c ∈ n.children, c.Everywhere fun m => rule m = .ok none)
    (h : rule n = .ok (some r)) : r.Everywhere fun m => rule m = .ok none := by
  obtain ⟨name, op, family, source, value, hop, hasks, rfl⟩ := asks_of_rule h
  obtain ⟨hsource, hvalue⟩ := hasks.everywhere hop hn
  have hcontains : (containsCall family source value).Everywhere fun m => rule m = .ok none :=
    everywhere_iff.mpr ⟨rule_containsCall family source value,
      by simpa [containsCall, children] using ⟨hsource, hvalue⟩⟩
  unfold answer
  split
  · exact everywhere_iff.mpr ⟨rfl, by simpa [children] using hcontains⟩
  · exact hcontains

/-- Where a quantifier was replaced, its predicate compares each element with the value sought, and
nothing is left that could be replaced. -/
theorem rewriting_sound (h : run e = .ok r) : Rewrites e r ∧ run r = .ok r :=
  ⟨rewrites_of_run h, (Rule.settled_of_everywhere_none
    (Rule.everywhere_none_of_bottomUp (fun _ _ => everywhere_none_of_rule) h)).bottomUp_eq_self⟩

def ids : Expr := .param ⟨"ids", .sequence .int32⟩

def flags : Expr := .param ⟨"flags", .sequence .boolean⟩

/-- Do all numbers differ from 2? -/
def noneIsTwo : Expr :=
  .call ⟨"Enumerable", "All", [.int32, .boolean]⟩ none
    [ids, .lambda [⟨"x", .int32⟩]
      (.binary .notEq (.literal (.int32 2)) (.param ⟨"x", .int32⟩))] .boolean

/-- Does any flag tell whether all numbers differ from 2? The inner lambda hides the flag. -/
def flagged : Expr :=
  .call ⟨"Enumerable", "Any", [.boolean, .boolean]⟩ none
    [flags, .lambda [⟨"x", .boolean⟩] (.binary .eq noneIsTwo (.param ⟨"x", .boolean⟩))] .boolean

/-- The same by membership: the flag that is sought is whether 2 is missing. -/
def flaggedByMembership : Expr :=
  containsCall .inMemory flags (.unary .not (containsCall .inMemory ids (.literal (.int32 2))))

theorem rewriting_sound_of_flagged :
    run flagged = .ok flaggedByMembership ∧ Rewrites flagged flaggedByMembership ∧
      run flaggedByMembership = .ok flaggedByMembership := by
  have hrun : run flagged = .ok flaggedByMembership := by cbv
  exact ⟨hrun, rewriting_sound hrun⟩

end Pass.Membership

end QueryLowering
