import QueryLowering.Proofs.Flattening
import QueryLowering.Proofs.Verification

/-!
What is left of a parameter after one of its members was replaced. The replacement goes through the tree
and stops at lambdas that hide the parameter; whether the result still refers to the parameter is found
out afterwards. Both say the same about every tree: the result refers to the parameter exactly if it was
used at some position other than as the target of an access of the member.
-/

namespace QueryLowering

namespace Expr

variable {t : Param} {name : String} {e n r : Expr} {i : Nat} {path : List Nat}

/-- The node stands at the position, and no lambda above it has a parameter of the name of `t`. -/
def InScope (t : Param) (e : Expr) (path : List Nat) (n : Expr) : Prop :=
  e.at? path = some n ∧ ∀ above i below params body, path = above ++ i :: below →
    e.at? above = some (lambda params body) → hides params t.name = false

/-- At the position the parameter is used, and not as the target of an access of its member. -/
def LeftoverAt (t : Param) (name : String) (e : Expr) (path : List Nat) : Prop :=
  InScope t e path (param t) ∧ ∀ above i type, path = above ++ [i] →
    e.at? above ≠ some (member (param t) name type)

theorem leavesVisible_iff : e.leavesVisible t = true ↔
    ∀ params body, e = lambda params body → hides params t.name = false := by
  cases e with
  | lambda params body => simp [leavesVisible]
  | _ => simp [leavesVisible]

theorem leavesVisible_of_ne_lambda (h : ∀ params body, e ≠ lambda params body) :
    e.leavesVisible t = true :=
  leavesVisible_iff.mpr fun params body heq => absurd heq (h params body)

theorem isMemberOf_iff : e.isMemberOf t name = true ↔ ∃ type, e = member (param t) name type := by
  constructor
  · exact exists_of_isMemberOf
  · rintro ⟨type, rfl⟩
    simp [isMemberOf]

theorem inScope_nil : InScope t e [] n ↔ e = n := by
  simp [InScope, at?]

/-- A position below the root is in scope exactly if the root does not hide the parameter and the
position is in scope in the child. -/
theorem inScope_cons : InScope t e (i :: path) n ↔
    e.leavesVisible t = true ∧ ∃ c, e.children[i]? = some c ∧ InScope t c path n := by
  unfold InScope
  rw [leavesVisible_iff, at?, Option.bind_eq_some_iff]
  constructor
  · rintro ⟨⟨c, hc, hn⟩, hlambda⟩
    refine ⟨fun params body he => ?_, c, hc, hn, ?_⟩
    · exact hlambda [] i path params body rfl (congrArg some he)
    · intro above j below params body hpath habove
      refine hlambda (i :: above) j below params body (congrArg (i :: ·) hpath) ?_
      rw [at?, hc, Option.bind_some, habove]
  · rintro ⟨hroot, c, hc, hn, hbelow⟩
    refine ⟨⟨c, hc, hn⟩, ?_⟩
    intro above j below params body hpath habove
    cases above with
    | nil => exact hroot params body (Option.some.inj habove)
    | cons k above =>
      obtain ⟨rfl, hrest⟩ := List.cons.inj hpath
      rw [at?, hc, Option.bind_some] at habove
      exact hbelow above j below params body hrest habove

/-- Something is found in the scope of a parameter at the root, or below a root that does not hide the
parameter. -/
theorem exists_inScope_iff {P : Expr → Prop} :
    (∃ path n, InScope t e path n ∧ P n) ↔
      P e ∨ e.leavesVisible t = true ∧ ∃ c ∈ e.children, ∃ path n, InScope t c path n ∧ P n := by
  constructor
  · rintro ⟨path, n, hscope, hn⟩
    cases path with
    | nil =>
      cases inScope_nil.mp hscope
      exact .inl hn
    | cons i path =>
      obtain ⟨hvisible, c, hc, hscope⟩ := inScope_cons.mp hscope
      exact .inr ⟨hvisible, c, List.mem_of_getElem? hc, path, n, hscope, hn⟩
  · rintro (he | ⟨hvisible, c, hc, path, n, hscope, hn⟩)
    · exact ⟨[], e, inScope_nil.mpr rfl, he⟩
    · obtain ⟨i, hi⟩ := List.mem_iff_getElem?.mp hc
      exact ⟨i :: path, n, inScope_cons.mpr ⟨hvisible, c, hi, hscope⟩, hn⟩

/-- An expression reads the member exactly if an access of it is in scope. -/
theorem readsMember_iff : readsMember t name e = true ↔
    ∃ path n, InScope t e path n ∧ n.isMemberOf t name = true := by
  induction e using lambdaInduction with
  | hlambda params body ih =>
    rw [exists_inScope_iff]
    simp [isMemberOf, leavesVisible, children, ih]
  | hnode e hl ih =>
    rw [exists_inScope_iff]
    cases hm : e.isMemberOf t name with
    | true => simp [readsMember_of_isMemberOf hm]
    | false =>
      rw [readsMember_eq_any hm hl, List.any_eq_true]
      simp only [leavesVisible_of_ne_lambda hl, Bool.false_eq_true, false_or, true_and]
      exact exists_congr fun c => and_congr_right fun hc => ih c hc

theorem leftoverAt_nil : LeftoverAt t name e [] ↔ e = param t := by
  simp [LeftoverAt, inScope_nil]

/-- An access of the member has no use below it that is left over: its only child is the target. -/
theorem leftoverAt_cons : LeftoverAt t name e (i :: path) ↔
    e.leavesVisible t = true ∧ e.isMemberOf t name = false ∧
      ∃ c, e.children[i]? = some c ∧ LeftoverAt t name c path := by
  constructor
  · rintro ⟨hscope, htarget⟩
    obtain ⟨hvisible, c, hc, hscope⟩ := inScope_cons.mp hscope
    refine ⟨hvisible, ?_, c, hc, hscope, ?_⟩
    · by_contra hm
      -- Below an access of the member there is its target only, which is not left over.
      obtain ⟨type, rfl⟩ := isMemberOf_iff.mp (Bool.not_eq_false _ ▸ hm)
      have hparam : c = param t := by simpa [children] using List.mem_of_getElem? hc
      subst hparam
      cases path with
      | nil => exact htarget [] i type rfl rfl
      | cons j path =>
        obtain ⟨-, d, hd, -⟩ := inScope_cons.mp hscope
        cases hd
    · intro above j type hpath
      have hbelow := htarget (i :: above) j type (congrArg (i :: ·) hpath)
      rwa [at?, hc, Option.bind_some] at hbelow
  · rintro ⟨hvisible, hm, c, hc, hscope, htarget⟩
    refine ⟨inScope_cons.mpr ⟨hvisible, c, hc, hscope⟩, ?_⟩
    intro above j type hpath
    cases above with
    | nil =>
      intro heq
      rw [isMemberOf_iff.mpr ⟨type, Option.some.inj heq⟩] at hm
      cases hm
    | cons k above =>
      obtain ⟨rfl, hrest⟩ := List.cons.inj hpath
      rw [at?, hc, Option.bind_some]
      exact htarget above j type hrest

theorem exists_leftoverAt_iff :
    (∃ path, LeftoverAt t name e path) ↔ e = param t ∨
      e.leavesVisible t = true ∧ e.isMemberOf t name = false ∧
        ∃ c ∈ e.children, ∃ path, LeftoverAt t name c path := by
  constructor
  · rintro ⟨path, h⟩
    cases path with
    | nil => exact .inl (leftoverAt_nil.mp h)
    | cons i path =>
      obtain ⟨hvisible, hm, c, hc, h⟩ := leftoverAt_cons.mp h
      exact .inr ⟨hvisible, hm, c, List.mem_of_getElem? hc, path, h⟩
  · rintro (rfl | ⟨hvisible, hm, c, hc, path, h⟩)
    · exact ⟨[], leftoverAt_nil.mpr rfl⟩
    · obtain ⟨i, hi⟩ := List.mem_iff_getElem?.mp hc
      exact ⟨i :: path, leftoverAt_cons.mpr ⟨hvisible, hm, c, hi, h⟩⟩

/-- The references to a parameter after its member was replaced: uses that are left over, and what the
replacement brings in for the reads. A lambda that does not hide the parameter hides no reference to it
in the replacement either. -/
theorem references_substMember_iff :
    references t (substMember t name r e) = true ↔
      (∃ path, LeftoverAt t name e path) ∨
        readsMember t name e = true ∧ references t r = true := by
  induction e using scopeInduction with
  | hparam p =>
    rw [substMember_eq_self r (readsMember_param p), exists_leftoverAt_iff]
    simp [children]
  | hlambda params body ih =>
    rw [substMember_lambda, exists_leftoverAt_iff]
    cases hhides : hides params t.name with
    | true => simp [hhides, leavesVisible]
    | false => simp [hhides, leavesVisible, isMemberOf, children, ih]
  | hnode e hp hl ih =>
    rw [exists_leftoverAt_iff]
    simp only [hp t, leavesVisible_of_ne_lambda hl, false_or, true_and]
    cases hm : e.isMemberOf t name with
    | true =>
      -- The whole access is replaced, and what stands below it is its target.
      rw [substMember_of_isMemberOf hm, readsMember_of_isMemberOf hm]
      simp
    | false =>
      rw [substMember_eq_setChildren hm hl, references_setChildren hp hl (List.length_map _),
        readsMember_eq_any hm hl, List.any_map, List.any_eq_true, List.any_eq_true]
      simp only [Function.comp_apply, true_and]
      constructor
      · rintro ⟨c, hc, hreferences⟩
        rcases (ih c hc).mp hreferences with hleftover | ⟨hreads, hr⟩
        · exact .inl ⟨c, hc, hleftover⟩
        · exact .inr ⟨⟨c, hc, hreads⟩, hr⟩
      · rintro (⟨c, hc, hleftover⟩ | ⟨⟨c, hc, hreads⟩, hr⟩)
        · exact ⟨c, hc, (ih c hc).mpr (.inl hleftover)⟩
        · exact ⟨c, hc, (ih c hc).mpr (.inr ⟨hreads, hr⟩)⟩

/-- If the replacement does not refer to the parameter, then the result does so exactly if the parameter
was used, where no lambda hides it, in another way than as the target of an access of the member. If no
access of the member is in scope, then nothing is replaced. -/
theorem leftover_uses_detected (hr : references t r = false) (e : Expr) (name : String) :
    (references t (substMember t name r e) = true ↔
      ∃ path, InScope t e path (param t) ∧ ∀ above i type, path = above ++ [i] →
        e.at? above ≠ some (member (param t) name type)) ∧
    ((∀ path type, ¬ InScope t e path (member (param t) name type)) →
      substMember t name r e = e) := by
  constructor
  · rw [references_substMember_iff, hr]
    simp [LeftoverAt]
  · intro h
    refine substMember_eq_self r (Bool.eq_false_iff.mpr fun hreads => ?_)
    obtain ⟨path, n, hscope, hn⟩ := readsMember_iff.mp hreads
    obtain ⟨type, rfl⟩ := isMemberOf_iff.mp hn
    exact h path type hscope

end Expr

namespace Pass.GroupJoin

open QueryLowering.Expr

variable {parts : Parts} {pair inner : Param} {selector body : Expr}

/-- The selector of a flat join exists exactly if the selector before it used the pair for nothing but
the outer row, unless the pair and the outer row are called alike. -/
theorem joinSelector?_isSome_iff (hselector : selector.lambda? = some ([pair, inner], body))
    (hne : parts.outerParam ≠ pair) :
    (joinSelector? parts [selector]).isSome = true ↔
      ∀ path, ¬ LeftoverAt pair parts.outerMember body path := by
  have houter : references pair (.param parts.outerParam) = false := by simpa using hne
  have hleftover : references pair
      (substMember pair parts.outerMember (.param parts.outerParam) body) = true ↔
        ∃ path, LeftoverAt pair parts.outerMember body path := by
    rw [references_substMember_iff, houter]
    simp
  rw [← not_exists, ← hleftover]
  simp only [joinSelector?, hselector]
  split
  · rename_i hreferences
    simp [hreferences]
  · rename_i hreferences
    simp [hreferences]

end Pass.GroupJoin

namespace Neighbours

open QueryLowering.Expr

/-- The name of the customer, the neighbours, and a `t` that a lambda hides. -/
def pairUses : Expr :=
  .object [("Name", .member (.member (.param pair) "Customer" (.entity "Customer")) "Name" .utf8),
    ("Neighbours", .member (.param pair) "Neighbours" group.type),
    ("Hidden", .lambda [⟨"t", .int32⟩] (.param pair))]

/-- The customer can be taken out of the pair, but the neighbours are left over; orders are not read. -/
theorem neighbours_left_over :
    references pair (.param (customer "c")) = false ∧
    references pair (substMember pair "Customer" (.param (customer "c")) pairUses) = true ∧
    (∀ path type, ¬ InScope pair pairUses path (.member (.param pair) "Orders" type)) ∧
    substMember pair "Orders" (.param (customer "c")) pairUses = pairUses := by
  have hr : references pair (.param (customer "c")) = false := by cbv
  have hleftover : LeftoverAt pair "Customer" pairUses [1, 0] := by
    refine leftoverAt_cons.mpr ⟨rfl, rfl, _, rfl, ?_⟩
    exact leftoverAt_cons.mpr ⟨rfl, by decide, _, rfl, leftoverAt_nil.mpr rfl⟩
  have horders : readsMember pair "Orders" pairUses = false := by cbv
  have hunread : ∀ path type,
      ¬ InScope pair pairUses path (.member (.param pair) "Orders" type) := by
    intro path type hscope
    have hreads := readsMember_iff.mpr ⟨path, _, hscope, isMemberOf_iff.mpr ⟨type, rfl⟩⟩
    exact Bool.false_ne_true (horders.symm.trans hreads)
  exact ⟨hr, (leftover_uses_detected hr pairUses "Customer").1.mpr ⟨[1, 0], hleftover⟩, hunread,
    (leftover_uses_detected hr pairUses "Orders").2 hunread⟩

end Neighbours

end QueryLowering
