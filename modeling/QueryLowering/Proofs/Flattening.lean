import QueryLowering.Proofs.Capture
import QueryLowering.Proofs.Settled.Rules

/-!
What the selector of a flat join means. It reads the outer row where the selector before it read the
member of a pair, under a new pair of parameters. Two things can go wrong, as nothing is renamed: what
the selector refers to under the name of the outer row is taken for it, and a lambda that hides this
name captures the outer row.
-/

namespace QueryLowering

namespace Expr

variable {σ τ : Bindings} {t o q : Param} {name : String} {a e : Expr}

/-- Under a lambda, what it hides stands for itself. -/
theorem value_visible (σ : Bindings) (params : List Param) (q : Param) :
    ((σ.visible params).lookup q).getD (param q) =
      if hides params q.name then param q else (σ.lookup q).getD (param q) := by
  split
  · rename_i h
    rw [lookup_visible_of_hides h, Option.getD_none]
  · rename_i h
    rw [lookup_visible (by simpa using h)]

theorem map_children_eq_iff {f g : Expr → Expr} :
    e.setChildren (e.children.map f) = e.setChildren (e.children.map g) ↔
      ∀ c ∈ e.children, f c = g c := by
  constructor
  · intro h
    have hmap := setChildren_injective (List.length_map _) (List.length_map _) h
    exact List.map_inj_left.mp hmap
  · intro h
    rw [List.map_congr_left h]

/-- Two substitutions give the same exactly if they give the same for all that is referred to. -/
theorem subst_eq_subst_iff : subst σ e = subst τ e ↔
    ∀ q, references q e = true → (σ.lookup q).getD (param q) = (τ.lookup q).getD (param q) := by
  induction e using scopeInduction generalizing σ τ with
  | hparam p =>
    simp only [subst_param, references_param, beq_iff_eq, forall_eq']
  | hlambda params body ih =>
    rw [subst_lambda, subst_lambda, lambda.injEq, ih]
    simp only [true_and, value_visible, references_lambda, Bool.and_eq_true, Bool.not_eq_true']
    apply forall_congr'
    intro q
    cases hides params q.name <;> simp
  | hnode e hp hl ih =>
    rw [subst_eq_setChildren σ e hp hl, subst_eq_setChildren τ e hp hl, map_children_eq_iff]
    simp only [references_eq_any _ e hp hl, List.any_eq_true]
    constructor
    · rintro h q ⟨c, hc, hq⟩
      exact (ih c hc).mp (h c hc) q hq
    · intro h c hc
      exact (ih c hc).mpr fun q hq => h q ⟨c, hc, hq⟩

/-- Substitutions that agree on all but one parameter, which is bound to `a` in the first. -/
theorem subst_eq_subst_iff_of_lookup
    (hagree : ∀ q, q ≠ o → (σ.lookup q).getD (param q) = (τ.lookup q).getD (param q))
    (ho : σ.lookup o = some a) :
    subst σ e = subst τ e ↔ (references o e = true → (τ.lookup o).getD (param o) = a) := by
  rw [subst_eq_subst_iff]
  constructor
  · intro h hreferences
    rw [← h o hreferences, ho, Option.getD_some]
  · intro h q hq
    by_cases hqo : q = o
    · subst hqo
      rw [h hq, ho, Option.getD_some]
    · exact hagree q hqo

/-- A substitution changes nothing exactly if all that is referred to stands for itself. -/
theorem subst_eq_self_iff :
    subst σ e = e ↔ ∀ q, references q e = true → (σ.lookup q).getD (param q) = param q := by
  conv => lhs; rhs; rw [← subst_nil e]
  exact subst_eq_subst_iff

/-- The expression refers to no parameter of an outer scope. -/
def Closed (e : Expr) : Prop := ∀ q, references q e = false

theorem Closed.subst_eq_self (ha : a.Closed) (σ : Bindings) : subst σ a = a := by
  apply subst_eq_self_iff.mpr
  intro q hq
  rw [ha q] at hq
  cases hq

theorem Closed.ne_param (ha : a.Closed) (p : Param) : a ≠ param p := by
  rintro rfl
  simpa using ha p

/-- Does the expression read the member of the parameter? -/
def readsMember (t : Param) (name : String) (e : Expr) : Bool :=
  e.isMemberOf t name ||
    match e with
    | lambda params body => !hides params t.name && readsMember t name body
    | e => e.anyChild fun c _ => readsMember t name c
termination_by e
decreasing_by
  · exact sizeOf_lt_of_mem_children (by simp [children])
  · exact sizeOf_lt_of_mem_children ‹_›

/-- Does the expression read the member of `t` under a lambda that hides `o`? There, `o` would be
captured if it were put for the member. -/
def capturesMember (t : Param) (name : String) (o : Param) (e : Expr) : Bool :=
  match e with
  | lambda params body =>
    !hides params t.name &&
      if hides params o.name then readsMember t name body else capturesMember t name o body
  | e => e.anyChild fun c _ => capturesMember t name o c
termination_by e
decreasing_by
  · exact sizeOf_lt_of_mem_children (by simp [children])
  · exact sizeOf_lt_of_mem_children ‹_›

theorem readsMember_of_isMemberOf (h : e.isMemberOf t name = true) : readsMember t name e = true := by
  rw [readsMember.eq_def, h, Bool.true_or]

@[simp] theorem readsMember_lambda (params : List Param) (body : Expr) :
    readsMember t name (lambda params body) =
      (!hides params t.name && readsMember t name body) := by
  rw [readsMember, isMemberOf, Bool.false_or]
  simp

@[simp] theorem capturesMember_lambda (params : List Param) (body : Expr) :
    capturesMember t name o (lambda params body) = (!hides params t.name &&
      if hides params o.name then readsMember t name body else capturesMember t name o body) := by
  rw [capturesMember]

theorem readsMember_eq_any (h : e.isMemberOf t name = false)
    (hlambda : ∀ params body, e ≠ lambda params body) :
    readsMember t name e = e.children.any (readsMember t name) := by
  rw [readsMember.eq_def, h, Bool.false_or]
  split
  · exact absurd rfl (hlambda _ _)
  · rw [anyChild_eq]

theorem capturesMember_eq_any (hlambda : ∀ params body, e ≠ lambda params body) :
    capturesMember t name o e = e.children.any (capturesMember t name o) := by
  rw [capturesMember.eq_def]
  split
  · exact absurd rfl (hlambda _ _)
  · rw [anyChild_eq]

@[simp] theorem readsMember_param (p : Param) : readsMember t name (param p) = false := by
  rw [readsMember_eq_any rfl (by simp)]
  rfl

@[simp] theorem capturesMember_param (p : Param) : capturesMember t name o (param p) = false := by
  rw [capturesMember_eq_any (by simp)]
  rfl

/-- An access of the member, with its type. -/
theorem exists_of_isMemberOf (h : e.isMemberOf t name = true) :
    ∃ type, e = member (param t) name type := by
  unfold isMemberOf at h
  split at h
  · rename_i p n type
    simp only [Bool.and_eq_true, beq_iff_eq] at h
    obtain ⟨rfl, rfl⟩ := h
    exact ⟨type, rfl⟩
  · cases h

theorem references_of_readsMember (h : readsMember t name e = true) : references t e = true := by
  induction e using scopeInduction with
  | hparam p => simp at h
  | hlambda params body ih =>
    simp only [readsMember_lambda, references_lambda, Bool.and_eq_true] at h ⊢
    exact ⟨h.1, ih h.2⟩
  | hnode e hp hl ih =>
    rw [references_eq_any t e hp hl, List.any_eq_true]
    cases hm : e.isMemberOf t name with
    | true =>
      obtain ⟨type, rfl⟩ := exists_of_isMemberOf hm
      exact ⟨param t, by simp [children], by simp⟩
    | false =>
      rw [readsMember_eq_any hm hl, List.any_eq_true] at h
      obtain ⟨c, hc, hreads⟩ := h
      exact ⟨c, hc, ih c hc hreads⟩

/-- What captures a member reads it. -/
theorem readsMember_of_capturesMember (h : capturesMember t name o e = true) :
    readsMember t name e = true := by
  induction e using scopeInduction with
  | hparam p => simp at h
  | hlambda params body ih =>
    simp only [capturesMember_lambda, readsMember_lambda, Bool.and_eq_true] at h ⊢
    refine ⟨h.1, ?_⟩
    split at h
    · exact h.2
    · exact ih h.2
  | hnode e hp hl ih =>
    cases hm : e.isMemberOf t name with
    | true => exact readsMember_of_isMemberOf hm
    | false =>
      rw [capturesMember_eq_any hl, List.any_eq_true] at h
      obtain ⟨c, hc, hcaptures⟩ := h
      rw [readsMember_eq_any hm hl, List.any_eq_true]
      exact ⟨c, hc, ih c hc hcaptures⟩

/-- Nothing is put in where the member is not read. -/
theorem substMember_eq_self (a : Expr) (h : readsMember t name e = false) :
    substMember t name a e = e := by
  induction e using lambdaInduction with
  | hlambda params body ih =>
    rw [substMember_lambda]
    split
    · rfl
    · rename_i hhides
      have hbody : readsMember t name body = false := by simpa [hhides] using h
      rw [ih hbody]
  | hnode e hl ih =>
    have hm : e.isMemberOf t name = false := by
      by_contra hm
      rw [readsMember_of_isMemberOf (by simpa using hm)] at h
      cases h
    rw [readsMember_eq_any hm hl, List.any_eq_false] at h
    rw [substMember_eq_setChildren hm hl]
    exact setChildren_map_eq_self fun c hc => ih c hc (by simpa using h c hc)

/-- A parameter that is put for a member of its own leaves the references to it where they are. -/
theorem references_substMember_self (t : Param) (name : String) (e : Expr) :
    references t (substMember t name (param t) e) = references t e := by
  induction e using scopeInduction with
  | hparam p => rw [substMember_eq_self _ (readsMember_param p)]
  | hlambda params body ih =>
    rw [substMember_lambda]
    split
    · rfl
    · rw [references_lambda, references_lambda, ih]
  | hnode e hp hl ih =>
    cases hm : e.isMemberOf t name with
    | true =>
      obtain ⟨type, rfl⟩ := exists_of_isMemberOf hm
      rw [substMember_of_isMemberOf hm, references_eq_any t _ hp hl]
      simp [children]
    | false =>
      rw [substMember_eq_setChildren hm hl, references_setChildren hp hl (List.length_map _),
        references_eq_any t e hp hl, List.any_map, Bool.eq_iff_iff]
      simp only [List.any_eq_true, Function.comp_apply]
      exact exists_congr fun c => and_congr_right fun hc => by rw [ih c hc]

/-- Both substitutions go through a node that is neither a read, a parameter nor a lambda. -/
theorem subst_substMember_eq_setChildren (σ : Bindings) (a : Expr) (hp : ∀ p, e ≠ param p)
    (hl : ∀ params body, e ≠ lambda params body) (hm : e.isMemberOf t name = false) :
    subst σ (substMember t name a e) =
      e.setChildren (e.children.map fun c => subst σ (substMember t name a c)) := by
  rw [substMember_eq_setChildren hm hl, subst_setChildren σ hp hl (List.length_map _), List.map_map]
  rfl

/-- Where the name of `o` is hidden, nothing may be read: `o` stands for itself there. -/
theorem subst_substMember_eq_iff_of_hidden (ha : a.Closed)
    (hagree : ∀ q, (σ.lookup q).getD (param q) = (τ.lookup q).getD (param q))
    (ho : σ.lookup o = none) :
    subst σ (substMember t name (param o) e) = subst τ (substMember t name a e) ↔
      readsMember t name e = false := by
  constructor
  · induction e using scopeInduction generalizing σ τ with
    | hparam p => exact fun _ => readsMember_param p
    | hlambda params body ih =>
      simp only [substMember_lambda, readsMember_lambda]
      cases hhides : hides params t.name with
      | true => simp
      | false =>
        simp only [Bool.false_eq_true, if_false, subst_lambda, lambda.injEq, true_and,
          Bool.not_false, Bool.true_and]
        apply ih
        · intro q
          rw [value_visible, value_visible, hagree q]
        · cases hhidden : hides params o.name with
          | true => exact lookup_visible_of_hides hhidden
          | false => rw [lookup_visible hhidden, ho]
    | hnode e hp hl ih =>
      intro h
      cases hm : e.isMemberOf t name with
      | true =>
        -- The read would be `o` on the one side and closed on the other.
        rw [substMember_of_isMemberOf hm, substMember_of_isMemberOf hm, subst_param, ho,
          Option.getD_none, ha.subst_eq_self] at h
        exact absurd h.symm (ha.ne_param o)
      | false =>
        rw [subst_substMember_eq_setChildren σ _ hp hl hm,
          subst_substMember_eq_setChildren τ _ hp hl hm, map_children_eq_iff] at h
        rw [readsMember_eq_any hm hl, List.any_eq_false]
        intro c hc
        rw [ih c hc hagree ho (h c hc)]
        exact Bool.false_ne_true
  · intro h
    rw [substMember_eq_self _ h, substMember_eq_self _ h]
    exact subst_eq_subst_iff.mpr fun q _ => hagree q

/-- To put `o` for a member and then `a` for `o` is to put `a` for the member, if the substitutions
agree on all but `o`, exactly under two conditions: a reference to `o` gives `a` anyway, and no read of
the member is under a lambda that hides `o`. -/
theorem subst_substMember_eq_iff (ha : a.Closed) (hne : t ≠ o)
    (hagree : ∀ q, q ≠ o → (σ.lookup q).getD (param q) = (τ.lookup q).getD (param q))
    (ho : σ.lookup o = some a) :
    subst σ (substMember t name (param o) e) = subst τ (substMember t name a e) ↔
      (references o e = true → (τ.lookup o).getD (param o) = a) ∧
        capturesMember t name o e = false := by
  induction e using scopeInduction generalizing σ τ with
  | hparam p =>
    rw [substMember_eq_self _ (readsMember_param p), substMember_eq_self _ (readsMember_param p),
      subst_eq_subst_iff_of_lookup hagree ho, capturesMember_param]
    simp
  | hlambda params body ih =>
    simp only [substMember_lambda, references_lambda, capturesMember_lambda]
    cases hhides : hides params t.name with
    | true =>
      -- The member is not that of the pair any more, so this is about plain substitution.
      simp only [if_true, Bool.not_true, Bool.false_and, and_true]
      rw [subst_eq_subst_iff_of_lookup hagree ho, references_lambda]
    | false =>
      simp only [Bool.false_eq_true, if_false, subst_lambda, lambda.injEq, true_and, Bool.not_false,
        Bool.true_and]
      cases hhidden : hides params o.name with
      | true =>
        have hvisible : ∀ q, ((σ.visible params).lookup q).getD (param q) =
            ((τ.visible params).lookup q).getD (param q) := by
          intro q
          rw [value_visible, value_visible]
          by_cases hqo : q = o
          · rw [hqo, hhidden, if_pos rfl, if_pos rfl]
          · rw [hagree q hqo]
        rw [subst_substMember_eq_iff_of_hidden ha hvisible (lookup_visible_of_hides hhidden)]
        simp
      | false =>
        rw [ih]
        · rw [lookup_visible hhidden]
          simp
        · intro q hq
          rw [value_visible, value_visible, hagree q hq]
        · rw [lookup_visible hhidden, ho]
  | hnode e hp hl ih =>
    rw [capturesMember_eq_any hl, references_eq_any o e hp hl]
    cases hm : e.isMemberOf t name with
    | true =>
      rw [substMember_of_isMemberOf hm, substMember_of_isMemberOf hm, subst_param, ho,
        Option.getD_some, ha.subst_eq_self]
      -- The only child of a read is the pair, which is not the outer row.
      obtain ⟨type, rfl⟩ := exists_of_isMemberOf hm
      simp [children, hne]
    | false =>
      rw [subst_substMember_eq_setChildren σ _ hp hl hm,
        subst_substMember_eq_setChildren τ _ hp hl hm, map_children_eq_iff]
      simp only [List.any_eq_true, List.any_eq_false, Bool.not_eq_true]
      constructor
      · intro h
        refine ⟨?_, fun c hc => ((ih c hc hagree ho).mp (h c hc)).2⟩
        rintro ⟨c, hc, hreferences⟩
        exact ((ih c hc hagree ho).mp (h c hc)).1 hreferences
      · rintro ⟨hreferences, hcaptures⟩ c hc
        exact (ih c hc hagree ho).mpr ⟨fun hr => hreferences ⟨c, hc, hr⟩, hcaptures c hc⟩

end Expr

namespace Pass.GroupJoin

open QueryLowering.Expr

section Selector

variable {outer inner outerKey innerKey pairing collection selector body r : Expr}
  {m grouping : Method} {receiver groupReceiver : Option Expr} {type groupType : DataType}
  {o group t i : Param} {outerName groupName : String} {members : List (String × Expr)}

/-- The parts of a group join that pairs its rows, in either order. -/
theorem parts?_eq_some (hpairing : pairing.lambda? = some ([o, group], .object members))
    (hmembers : members = [(outerName, .param o), (groupName, .param group)] ∨
      members = [(groupName, .param group), (outerName, .param o)]) {parts : Parts}
    (h : parts? (.call grouping groupReceiver [outer, inner, outerKey, innerKey, pairing] groupType) =
      some parts) :
    parts = ⟨[outer, inner, outerKey, innerKey], o, outerName, groupName⟩ := by
  simp only [parts?, hpairing] at h
  split at h
  · obtain ⟨⟨a, b⟩, hnames, rfl⟩ := Option.map_eq_some_iff.mp h
    have hne : group ≠ o := by
      rintro rfl
      obtain rfl | rfl := hmembers <;> simp [memberNames?] at hnames
    have hpair : (outerName, groupName) = (a, b) := by
      obtain rfl | rfl := hmembers <;> simpa [memberNames?, hne] using hnames
    cases hpair
    rfl
  · cases h

/-- What a group join with a result selector becomes: the selector of the join takes the outer row and
the inner row, and the pair is not used any more. -/
theorem flatJoin?_selector_eq_some (hpairing : pairing.lambda? = some ([o, group], .object members))
    (hmembers : members = [(outerName, .param o), (groupName, .param group)] ∨
      members = [(groupName, .param group), (outerName, .param o)])
    (hselector : selector.lambda? = some ([t, i], body)) {family : Family} {name : String}
    {args : List Expr}
    (h : flatJoin? family (.call grouping groupReceiver
      [outer, inner, outerKey, innerKey, pairing] groupType) collection [selector] =
        some (name, args)) :
    (name = "Join" ∨ name = "LeftJoin") ∧
      (substMember t outerName (.param o) body).references t = false ∧
      args = [outer, inner, outerKey, innerKey,
        selectorFor family (.lambda [o, i] (substMember t outerName (.param o) body))] := by
  obtain ⟨parts, leftOuter, flat, hparts, -, -, hflat, hname, hargs⟩ := flatJoin?_eq_some h
  obtain rfl := parts?_eq_some hpairing hmembers hparts
  obtain ⟨element, hnone, -⟩ | ⟨_, _, _, _, hsome, hlambda, hpair, rfl⟩ := joinSelector?_eq_some hflat
  · cases hnone
  · cases hsome
    cases hselector.symm.trans hlambda
    refine ⟨?_, hpair, hargs⟩
    cases leftOuter with
    | true => exact .inr hname
    | false => exact .inl hname

/-- The selectors before and after, on rows `a` and `b`. Once the pair is not used any more, they agree
exactly if the selector refers to no `o` of its own, or one that is `a` anyway, and reads the outer row
under no lambda that hides `o`. -/
theorem selector_agrees_iff (hpair : (substMember t outerName (.param o) body).references t = false)
    {a : Expr} (ha : a.Closed) (b : Expr) :
    subst [(o, a), (i, b)] (substMember t outerName (.param o) body) =
        subst [(i, b)] (substMember t outerName a body) ↔
      (body.references o = true → i = o ∧ b = a) ∧ capturesMember t outerName o body = false := by
  have hagree : ∀ q, q ≠ o → (([(o, a), (i, b)] : Bindings).lookup q).getD (.param q) =
      (([(i, b)] : Bindings).lookup q).getD (.param q) := by
    intro q hq
    rw [List.lookup_cons, beq_false_of_ne hq]
  have ho : ([(o, a), (i, b)] : Bindings).lookup o = some a := by simp
  have hvalue : (([(i, b)] : Bindings).lookup o).getD (.param o) = a ↔ i = o ∧ b = a := by
    by_cases hio : i = o
    · subst hio
      simp
    · rw [List.lookup_cons, beq_false_of_ne (Ne.symm hio)]
      simpa [hio] using (ha.ne_param o).symm
  by_cases hto : t = o
  · -- The pair has the parameter of the outer row, so the selector does not use it at all.
    subst hto
    rw [references_substMember_self] at hpair
    have hreads : readsMember t outerName body = false := by
      by_contra hreads
      rw [references_of_readsMember (by simpa using hreads)] at hpair
      cases hpair
    have hcaptures : capturesMember t outerName t body = false := by
      by_contra hcaptures
      rw [readsMember_of_capturesMember (by simpa using hcaptures)] at hreads
      cases hreads
    rw [substMember_eq_self _ hreads, substMember_eq_self _ hreads,
      subst_eq_subst_iff_of_lookup hagree ho, hvalue, hcaptures]
    simp
  · rw [subst_substMember_eq_iff ha hto hagree ho, hvalue]

/-- A group join that is unpacked with a selector becomes a join or a left join whose selector is that
of the unpacking with the outer row put for the member of the pair. On any two rows, the outer one of
which refers to nothing, both selectors give the same exactly under two conditions: the selector refers
to no parameter like that of the outer row, unless this is that of the inner row and both rows are the
same; and no read of the outer row is under a lambda that hides that name. -/
theorem flattened_selector_agrees_iff
    (hpairing : pairing.lambda? = some ([o, group], .object members))
    (hmembers : members = [(outerName, .param o), (groupName, .param group)] ∨
      members = [(groupName, .param group), (outerName, .param o)])
    (hselector : selector.lambda? = some ([t, i], body))
    (h : rule (.call m receiver [.call grouping groupReceiver
      [outer, inner, outerKey, innerKey, pairing] groupType, collection, selector] type) =
        .ok (some r)) :
    ∃ family name typeArgs flatType flatBody,
      Family.ofOwner? m.owner = some family ∧ (name = "Join" ∨ name = "LeftJoin") ∧
      r = .call ⟨m.owner, name, typeArgs⟩ none [outer, inner, outerKey, innerKey,
        selectorFor family (.lambda [o, i] flatBody)] flatType ∧
      ∀ a b, a.Closed →
        (subst [(o, a), (i, b)] flatBody = subst [(i, b)] (substMember t outerName a body) ↔
          (body.references o = true → i = o ∧ b = a) ∧
            capturesMember t outerName o body = false) := by
  unfold rule at h
  simp only at h
  split at h
  · split at h
    · rename_i name args hflat
      obtain ⟨family, hfamily, hflat⟩ := Option.bind_eq_some_iff.mp hflat
      obtain ⟨call, hcall, h⟩ := bind_eq_ok.mp h
      cases h
      obtain ⟨hname, hpair, rfl⟩ := flatJoin?_selector_eq_some hpairing hmembers hselector hflat
      obtain ⟨op, flatType, -, -, rfl⟩ := callOperator_eq_ok hcall
      exact ⟨family, name, _, flatType, _, hfamily, hname, rfl,
        fun a b ha => selector_agrees_iff hpair ha b⟩
    · cases h
  · cases h

end Selector

end Pass.GroupJoin

namespace Neighbours

open QueryLowering.Expr Pass.GroupJoin

def customer (name : String) : Param := ⟨name, .entity "Customer"⟩

/-- A customer with the customers of the same city. -/
def pair : Param :=
  ⟨"t", .record [("Customer", .entity "Customer"), ("Neighbours", .sequence (.entity "Customer"))]⟩

def cityOf (name : String) : Expr :=
  .quote (.lambda [customer name] (.member (.param (customer name)) "City" .utf8))

def group : Param := ⟨"g", .sequence (.entity "Customer")⟩

/-- Each customer, called `c`, is paired with the customers of the same city. -/
def pairing : Expr :=
  .quote (.lambda [customer "c", group]
    (.object [("Customer", .param (customer "c")), ("Neighbours", .param group)]))

/-- The names of two neighbours, the one of the pair and the other one. -/
def names (neighbour : String) : Expr :=
  .object [("Name", .member (.member (.param pair) "Customer" (.entity "Customer")) "Name" .utf8),
    ("Neighbour", .member (.param (customer neighbour)) "Name" .utf8)]

/-- The names of all neighbours, through the groups. -/
def unpacked (neighbour : String) : Expr :=
  .call ⟨"Queryable", "SelectMany", []⟩ none
    [.call ⟨"Queryable", "GroupJoin", []⟩ none
      [.entitySet "Customer", .entitySet "Customer", cityOf "c", cityOf "n", pairing]
      (.queryable pair.type),
     .quote (.lambda [pair] (.member (.param pair) "Neighbours" group.type)),
     .quote (.lambda [pair, customer neighbour] (names neighbour))]
    (.queryable (names neighbour).type)

/-- The names of all neighbours, by a join whose selector has the given inner row and body. -/
def joined (neighbour : String) (flatBody : Expr) : Expr :=
  .call ⟨"Queryable", "Join", [.entity "Customer", .entity "Customer", .utf8, .utf8, flatBody.type]⟩
    none
    [.entitySet "Customer", .entitySet "Customer", cityOf "c", cityOf "n",
     .quote (.lambda [customer "c", customer neighbour] flatBody)]
    (.queryable flatBody.type)

/-- A customer that is picked from all. -/
def picked (operator : String) : Expr :=
  .call ⟨"Queryable", operator, [.entity "Customer"]⟩ none [.entitySet "Customer"]
    (.entity "Customer")

theorem picked_closed (operator : String) : (picked operator).Closed := by
  intro q
  rw [picked, references_eq_any q _ (by simp) (by simp)]
  simp only [children, Option.toList_none, List.nil_append, List.any_cons, List.any_nil, entitySet]
  rw [references_eq_any q _ (by simp) (by simp)]
  rfl

/-- The selector of the join for neighbours with a given name. -/
def flatNames (neighbour : String) : Expr :=
  substMember pair "Customer" (.param (customer "c")) (names neighbour)

/-- With a neighbour called `n`, the join gives the names that the groups give. -/
theorem names_of_n :
    rule (unpacked "n") = .ok (some (joined "n" (flatNames "n"))) ∧ (picked "First").Closed ∧
      ∀ b, subst [(customer "c", picked "First"), (customer "n", b)] (flatNames "n") =
        subst [(customer "n", b)] (substMember pair "Customer" (picked "First") (names "n")) := by
  have hrule : rule (unpacked "n") = .ok (some (joined "n" (flatNames "n"))) := by cbv
  have hpairing : pairing.lambda? = some ([customer "c", group],
      .object [("Customer", .param (customer "c")), ("Neighbours", .param group)]) := rfl
  have hselector : (Expr.quote (.lambda [pair, customer "n"] (names "n"))).lambda? =
      some ([pair, customer "n"], names "n") := rfl
  refine ⟨hrule, picked_closed "First", fun b => ?_⟩
  obtain ⟨family, name, typeArgs, flatType, flatBody, hfamily, -, hjoin, hagrees⟩ :=
    flattened_selector_agrees_iff hpairing (.inl rfl) hselector hrule
  cases hfamily
  cases hjoin
  have hreferences : (names "n").references (customer "c") = false := by cbv
  have hcaptures : capturesMember pair "Customer" (customer "c") (names "n") = false := by cbv
  apply (hagrees _ b (picked_closed "First")).mpr
  exact ⟨fun h => absurd (hreferences.symm.trans h) Bool.false_ne_true, hcaptures⟩

/-- With a neighbour called `c` like the customer, the join gives the name of the customer twice. -/
theorem names_of_c_taken :
    rule (unpacked "c") = .ok (some (joined "c" (flatNames "c"))) ∧
      pairing.lambda? = some ([customer "c", group],
        .object [("Customer", .param (customer "c")), ("Neighbours", .param group)]) ∧
      (picked "First").Closed ∧ (picked "Last").Closed ∧
      subst [(customer "c", picked "First"), (customer "c", picked "Last")] (flatNames "c") =
        .object [("Name", .member (picked "First") "Name" .utf8),
          ("Neighbour", .member (picked "First") "Name" .utf8)] ∧
      subst [(customer "c", picked "Last")]
          (substMember pair "Customer" (picked "First") (names "c")) =
        .object [("Name", .member (picked "First") "Name" .utf8),
          ("Neighbour", .member (picked "Last") "Name" .utf8)] ∧
      subst [(customer "c", picked "First"), (customer "c", picked "Last")] (flatNames "c") ≠
        subst [(customer "c", picked "Last")]
          (substMember pair "Customer" (picked "First") (names "c")) := by
  have hflat : subst [(customer "c", picked "First"), (customer "c", picked "Last")]
      (flatNames "c") = .object [("Name", .member (picked "First") "Name" .utf8),
        ("Neighbour", .member (picked "First") "Name" .utf8)] := by cbv
  have hgrouped : subst [(customer "c", picked "Last")]
      (substMember pair "Customer" (picked "First") (names "c")) =
        .object [("Name", .member (picked "First") "Name" .utf8),
          ("Neighbour", .member (picked "Last") "Name" .utf8)] := by cbv
  refine ⟨by cbv, rfl, picked_closed "First", picked_closed "Last", hflat, hgrouped, ?_⟩
  rw [hflat, hgrouped]
  simp [picked]

end Neighbours

end QueryLowering
