import Mathlib
import QueryLowering.Proofs.Expansion
import QueryLowering.Proofs.Placeholders
import QueryLowering.Sample

/-!
Capture of parameters. Nothing renames the parameters of a lambda: substitution goes below lambdas as
they are, and the filter that a collection becomes has a parameter of a fixed name. So a reference is
lost exactly if a lambda between it and the root hides its name.
-/

namespace QueryLowering

namespace Expr

/-- Does the expression refer to `q` at a place where no lambda in between hides `y`? Only there can
something that refers to `y` be put for `q` without the reference being captured. -/
def exposes (q y : Param) (e : Expr) : Bool :=
  match e with
  | param p => p == q
  | lambda params body => !hides params q.name && !hides params y.name && exposes q y body
  | e => e.anyChild fun c _ => exposes q y c
termination_by e
decreasing_by
  · exact sizeOf_lt_of_mem_children (by simp [children])
  · exact sizeOf_lt_of_mem_children ‹_›

@[simp] theorem exposes_param (q y p : Param) : exposes q y (param p) = (p == q) := by
  rw [exposes]

@[simp] theorem exposes_lambda (q y : Param) (params : List Param) (body : Expr) :
    exposes q y (lambda params body) =
      (!hides params q.name && !hides params y.name && exposes q y body) := by
  rw [exposes]

theorem exposes_eq_any (q y : Param) (e : Expr) (hparam : ∀ p, e ≠ param p)
    (hlambda : ∀ params body, e ≠ lambda params body) :
    exposes q y e = e.children.any (exposes q y) := by
  rw [exposes, anyChild_eq]
  · exact fun p h => hparam p h
  · exact fun params body h => hlambda params body h

/-- What is exposed to some parameter is referred to. -/
theorem references_of_exposes {q y : Param} {e : Expr} (h : exposes q y e = true) :
    references q e = true := by
  induction e using scopeInduction with
  | hparam p => simpa using h
  | hlambda params body ih =>
    simp only [exposes_lambda, Bool.and_eq_true] at h
    obtain ⟨⟨hq, -⟩, hbody⟩ := h
    simp only [references_lambda, Bool.and_eq_true]
    exact ⟨hq, ih hbody⟩
  | hnode e hp hl ih =>
    rw [exposes_eq_any q y e hp hl, List.any_eq_true] at h
    obtain ⟨c, hc, hexposes⟩ := h
    rw [references_eq_any q e hp hl, List.any_eq_true]
    exact ⟨c, hc, ih c hc hexposes⟩

/-- Is the node no lambda that hides the parameter? -/
def leavesVisible (y : Param) : Expr → Bool
  | lambda params _ => !hides params y.name
  | _ => true

/-- If no lambda of an expression hides `y`, then all that it refers to is exposed to `y`. -/
theorem exposes_of_references {q y : Param} {e : Expr} (he : e.Everywhere fun n => n.leavesVisible y = true)
    (h : references q e = true) : exposes q y e = true := by
  induction e using scopeInduction with
  | hparam p => simpa using h
  | hlambda params body ih =>
    simp only [references_lambda, Bool.and_eq_true] at h
    have hvisible : (!hides params y.name) = true := he.root
    have hbody := ih (he.child (by simp [children])) h.2
    simp only [exposes_lambda, Bool.and_eq_true]
    exact ⟨⟨h.1, hvisible⟩, hbody⟩
  | hnode e hp hl ih =>
    rw [references_eq_any q e hp hl, List.any_eq_true] at h
    obtain ⟨c, hc, hreferences⟩ := h
    rw [exposes_eq_any q y e hp hl, List.any_eq_true]
    exact ⟨c, hc, ih c hc (he.child hc) hreferences⟩

/-- A parameter is exposed to itself wherever it is referred to: what hides the one hides the other. -/
theorem exposes_self (y : Param) (e : Expr) : exposes y y e = references y e := by
  induction e using scopeInduction with
  | hparam p => simp
  | hlambda params body ih => simp [ih]
  | hnode e hp hl ih =>
    rw [exposes_eq_any y y e hp hl, references_eq_any y e hp hl, Bool.eq_iff_iff]
    simp only [List.any_eq_true]
    exact exists_congr fun c => and_congr_right fun hc => by rw [ih c hc]

/-- What lambda parameters do not hide is bound below the lambda as it is above. -/
theorem lookup_visible {σ : Bindings} {params : List Param} {q : Param}
    (h : hides params q.name = false) : (σ.visible params).lookup q = σ.lookup q := by
  induction σ with
  | nil => rfl
  | cons b σ ih =>
    unfold Bindings.visible at ih ⊢
    rw [List.filter_cons]
    split
    · rw [List.lookup_cons, List.lookup_cons, ih]
    · -- A binding that is dropped has a hidden name, so it is not the one that is looked for.
      rename_i hhidden
      have hne : (q == b.1) = false := by
        apply beq_false_of_ne
        rintro rfl
        rw [h] at hhidden
        exact hhidden rfl
      rw [ih, List.lookup_cons, hne]

theorem lookup_visible_of_hides {σ : Bindings} {params : List Param} {q : Param}
    (h : hides params q.name = true) : (σ.visible params).lookup q = none := by
  apply List.lookup_eq_none_iff.mpr
  intro b hb
  obtain ⟨-, hvisible⟩ := List.mem_filter.mp hb
  apply bne_iff_ne.mpr
  rintro rfl
  rw [h] at hvisible
  cases hvisible

/-- A node that is no lambda is none with other children either. -/
theorem setChildren_ne_lambda {e : Expr} (h : ∀ params body, e ≠ lambda params body)
    (cs : List Expr) : ∀ params body, e.setChildren cs ≠ lambda params body := by
  intro params body hlambda
  have hkind : e.kindName = "Lambda" := by
    rw [← kindName_setChildren e cs, hlambda]
    rfl
  obtain ⟨ps, b, he⟩ := exists_lambda_of_kindName hkind
  exact h ps b he

/-- A node with other children refers to what these refer to. -/
theorem references_setChildren {y : Param} {e : Expr} {cs : List Expr} (hparam : ∀ p, e ≠ param p)
    (hlambda : ∀ params body, e ≠ lambda params body) (h : cs.length = e.children.length) :
    references y (e.setChildren cs) = cs.any (references y) := by
  rw [references_eq_any y _ (fun p heq => hparam p (eq_param_of_setChildren heq))
    (setChildren_ne_lambda hlambda cs), children_setChildren h]

/-- Substitution in a node with other children goes into these. -/
theorem subst_setChildren (σ : Bindings) {e : Expr} {cs : List Expr} (hparam : ∀ p, e ≠ param p)
    (hlambda : ∀ params body, e ≠ lambda params body) (h : cs.length = e.children.length) :
    subst σ (e.setChildren cs) = e.setChildren (cs.map (subst σ)) := by
  rw [subst_eq_setChildren σ _ (fun p heq => hparam p (eq_param_of_setChildren heq))
    (setChildren_ne_lambda hlambda cs), children_setChildren h, setChildren_setChildren h]
  rw [List.length_map, h]

/-- The references after a substitution: something that refers to `y` was put for a parameter, at a
place that is exposed to `y`. -/
theorem references_subst_iff {σ : Bindings} {y : Param} {e : Expr} :
    references y (subst σ e) = true ↔
      ∃ q, exposes q y e = true ∧ references y ((σ.lookup q).getD (param q)) = true := by
  induction e using scopeInduction generalizing σ with
  | hparam p =>
    rw [subst_param]
    simp
  | hlambda params body ih =>
    rw [subst_lambda]
    simp only [references_lambda, exposes_lambda, Bool.and_eq_true, Bool.not_eq_true', ih]
    constructor
    · rintro ⟨hy, q, hexposes, hreferences⟩
      -- A hidden parameter stands for itself, and it is not `y`, which is not hidden.
      have hq : hides params q.name = false := by
        by_contra hq
        rw [Bool.not_eq_false] at hq
        rw [lookup_visible_of_hides hq, Option.getD_none, references_param, beq_iff_eq] at hreferences
        rw [← hreferences, hq] at hy
        cases hy
      rw [lookup_visible hq] at hreferences
      exact ⟨q, ⟨⟨hq, hy⟩, hexposes⟩, hreferences⟩
    · rintro ⟨q, ⟨⟨hq, hy⟩, hexposes⟩, hreferences⟩
      refine ⟨hy, q, hexposes, ?_⟩
      rw [lookup_visible hq]
      exact hreferences
  | hnode e hp hl ih =>
    rw [subst_eq_setChildren σ e hp hl, references_setChildren hp hl (List.length_map _)]
    simp only [List.any_map, List.any_eq_true, Function.comp_apply]
    constructor
    · rintro ⟨c, hc, hreferences⟩
      obtain ⟨q, hexposes, hq⟩ := (ih c hc).mp hreferences
      refine ⟨q, ?_, hq⟩
      rw [exposes_eq_any q y e hp hl, List.any_eq_true]
      exact ⟨c, hc, hexposes⟩
    · rintro ⟨q, hexposes, hq⟩
      rw [exposes_eq_any q y e hp hl, List.any_eq_true] at hexposes
      obtain ⟨c, hc, hexposes⟩ := hexposes
      exact ⟨c, hc, (ih c hc).mpr ⟨q, hexposes, hq⟩⟩

/-- To put `r` for `p` makes an expression refer to `y` exactly if it did so before, or if `r` refers
to `y` and some `p` is exposed to `y`. Every exposed `p` is one that the expression refers to; the
converse holds if no lambda of the expression hides `y`, and then nothing is captured. -/
theorem references_subst_single_iff (e r : Expr) {p y : Param} (hne : p ≠ y) :
    (references y (subst [(p, r)] e) = true ↔
      references y e = true ∨ exposes p y e = true ∧ references y r = true) ∧
    (exposes p y e = true → references p e = true) ∧
    ((e.Everywhere fun n => n.leavesVisible y = true) → references p e = true →
      exposes p y e = true) := by
  refine ⟨?_, references_of_exposes, exposes_of_references⟩
  -- What stands for a parameter is `r` if it is `p`, and else the parameter.
  have hself : ([(p, r)] : Bindings).lookup p = some r := by simp
  have hother : ∀ q, q ≠ p → ([(p, r)] : Bindings).lookup q = none := by
    intro q hq
    rw [List.lookup_cons, beq_false_of_ne hq]
    rfl
  rw [references_subst_iff]
  constructor
  · rintro ⟨q, hexposes, hreferences⟩
    by_cases hq : q = p
    · subst hq
      rw [hself] at hreferences
      exact .inr ⟨hexposes, hreferences⟩
    · rw [hother q hq, Option.getD_none, references_param, beq_iff_eq] at hreferences
      subst hreferences
      rw [exposes_self] at hexposes
      exact .inl hexposes
  · rintro (hreferences | ⟨hexposes, hreferences⟩)
    · refine ⟨y, ?_, ?_⟩
      · rw [exposes_self]
        exact hreferences
      · rw [hother y hne.symm]
        simp
    · refine ⟨p, hexposes, ?_⟩
      rw [hself]
      exact hreferences

/-- A total that is compared with a limit, for any total. -/
def aboveLimit : Expr :=
  .lambda [⟨"total", .int32⟩] (.binary .gt (.param ⟨"total", .int32⟩) (.param ⟨"limit", .int32⟩))

/-- A parameter that no lambda hides stays visible when it is put for the limit. -/
theorem references_subst_budget :
    references ⟨"budget", .int32⟩
      (subst [(⟨"limit", .int32⟩, .param ⟨"budget", .int32⟩)] aboveLimit) = true := by
  obtain ⟨hiff, -, hexposes⟩ := references_subst_single_iff aboveLimit
    (.param ⟨"budget", .int32⟩) (p := ⟨"limit", .int32⟩) (y := ⟨"budget", .int32⟩) (by decide)
  have hnodes : aboveLimit.nodes.all (leavesVisible ⟨"budget", .int32⟩) = true := by cbv
  have hlimit : references ⟨"limit", .int32⟩ aboveLimit = true := by cbv
  exact hiff.mpr (.inr ⟨hexposes (List.all_eq_true.mp hnodes) hlimit, by simp⟩)

/-- If the total of an outer scope is put for the limit, then the lambda captures it. -/
theorem references_subst_total :
    (⟨"limit", .int32⟩ : Param) ≠ ⟨"total", .int32⟩ ∧
      references ⟨"limit", .int32⟩ aboveLimit = true ∧
      references ⟨"total", .int32⟩ (.param ⟨"total", .int32⟩) = true ∧
      references ⟨"total", .int32⟩
        (subst [(⟨"limit", .int32⟩, .param ⟨"total", .int32⟩)] aboveLimit) = false := by
  refine ⟨by decide, ?_, ?_, ?_⟩ <;> cbv

theorem references_foldBinary? {op : BinaryOp} {es : List Expr} {e : Expr} {q : Param}
    (h : foldBinary? op es = some e) : references q e = es.any (references q) := by
  cases es with
  | nil => cases h
  | cons x es =>
    cases h
    -- The fold goes on from what it has put together, which takes the place of the first element.
    induction es generalizing x with
    | nil => simp
    | cons y es ih =>
      have hbinary : references q (binary op x y) = (references q x || references q y) := by
        rw [references_eq_any q _ (by simp) (by simp)]
        simp [children]
      rw [List.foldl_cons, ih]
      simp only [List.any_cons, hbinary, Bool.or_assoc]

end Expr

namespace Pass.Navigation

open QueryLowering.Expr StateStep

variable {model : Model} {declaring : Entity} {n : QueryLowering.Navigation} {owner node r : Expr}

/-- The rows of a collection refer to what their owner refers to, apart from parameters that have the
name of the filter's own. -/
theorem references_expandCollection (h : expandCollection model owner declaring n node = .ok r)
    (q : Param) : r.references q = (owner.references q && q.name != "e") := by
  obtain ⟨tests, test, htest, htests, hcall⟩ := expandCollection_eq_ok h
  obtain ⟨op, type, -, -, rfl⟩ := callOperator_eq_ok hcall
  have hset : (Expr.entitySet n.target).references q = false := by
    unfold Expr.entitySet
    rw [references_eq_any q _ (by simp) (by simp)]
    rfl
  have hquote : (Expr.quote (.lambda [⟨"e", .entity n.target⟩] test)).references q =
      (q.name != "e" && test.references q) := by
    rw [references_eq_any q _ (by simp) (by simp)]
    simp [children, hides, bne, BEq.comm (a := q.name)]
  rw [references_eq_any q _ (by simp) (by simp)]
  simp only [children, Option.toList_none, List.nil_append, List.any_cons, List.any_nil, hset,
    hquote, Bool.false_or, Bool.or_false]
  -- If the name of the filter's parameter is another one, then only the owner refers to it.
  cases hname : q.name != "e" with
  | false => simp
  | true =>
    rw [references_foldBinary? htest, Bool.true_and, Bool.and_true, Bool.eq_iff_iff,
      List.any_eq_true]
    have hreferences : ∀ t ∈ tests, t.references q = owner.references q := by
      intro t ht
      obtain ⟨a, b, rfl⟩ := htests t ht
      have hne : (⟨"e", .entity n.target⟩ : Param) ≠ q := by
        rintro rfl
        simp at hname
      rw [references_eq_any q _ (by simp) (by simp)]
      simp only [children, List.any_cons, List.any_nil, Bool.or_false]
      rw [references_eq_any q _ (by simp) (by simp), references_eq_any q _ (by simp) (by simp)]
      simp [children, hne]
    constructor
    · rintro ⟨t, ht, hq⟩
      rw [← hreferences t ht]
      exact hq
    · intro hq
      obtain ⟨t, ht⟩ : ∃ t, t ∈ tests := by
        cases tests with
        | nil => cases htest
        | cons t ts => exact ⟨t, List.mem_cons_self⟩
      exact ⟨t, ht, (hreferences t ht).trans hq⟩

/-- A member of a row that is a navigation to many rows becomes a collection. -/
theorem expandMember_many {Γ : Scope} {name : String} {type : DataType} {x x' : Expansion}
    (htype : owner.type = .entity declaring.name)
    (hdeclaring : model.entity? declaring.name = some declaring)
    (hn : declaring.navigation? name = some n) (hmany : n.cardinality = .many)
    (h : (expandMember model Γ owner name type).Gives x r x') :
    expandCollection model owner declaring n (.member owner name type) = .ok r := by
  unfold expandMember at h
  simp only [htype, DataType.entityName?, Option.bind_some, hdeclaring, hn, hmany] at h
  exact (gives_ofExcept.mp h).1

/-- Wherever a navigation to many rows is expanded, the rows that it becomes refer to what the
expanded owner refers to, apart from parameters that are called `e` like that of the filter. So the
rows are those of their owner exactly if the owner refers to no parameter of that name. -/
theorem collection_keeps_owner_references {Γ : Scope} {bound : Nat → Option SourceKey} {row : Expr}
    {name : String} {type : DataType} {x x' : Expansion} {result : Expr × Option SourceKey}
    (h : (expand model Γ bound (.member row name type)).Gives x result x') :
    ∃ owner t, (expand model Γ (fun _ => none) row).Gives x owner t ∧
      ∀ declaring n, owner.1.type = .entity declaring.name →
        model.entity? declaring.name = some declaring → declaring.navigation? name = some n →
        n.cardinality = .many →
          (∃ typeArgs test type', result.1 =
            .call ⟨"Queryable", "Where", typeArgs⟩ none
              [.entitySet n.target, .quote (.lambda [⟨"e", .entity n.target⟩] test)] type') ∧
          (∀ q, result.1.references q = (owner.1.references q && q.name != "e")) ∧
          ((∀ q, owner.1.references q = true → result.1.references q = true) ↔
            ∀ q, owner.1.references q = true → q.name ≠ "e") := by
  rw [expand] at h
  obtain ⟨owner, t, howner, h⟩ := gives_bind.mp h
  obtain ⟨r, t', hr, h⟩ := gives_bind.mp h
  obtain ⟨rfl, rfl⟩ := gives_pure.mp h
  refine ⟨owner, t, howner, fun declaring n htype hdeclaring hn hmany => ?_⟩
  have hcollection := expandMember_many htype hdeclaring hn hmany hr
  have hreferences := references_expandCollection hcollection
  obtain ⟨-, test, -, -, hcall⟩ := expandCollection_eq_ok hcollection
  obtain ⟨op, type', -, -, hcall⟩ := callOperator_eq_ok hcall
  refine ⟨⟨_, test, type', hcall⟩, hreferences, ?_⟩
  apply forall_congr'
  intro q
  apply imp_congr_right
  intro hq
  rw [hreferences q, hq, Bool.true_and, bne_iff_ne]

end Pass.Navigation

namespace Correlation

open QueryLowering.Expr StateStep Pass.Navigation

/-- A row of an entity type. -/
def rowOf (name entity : String) : Param := ⟨name, .entity entity⟩

/-- The lines of an order, by the name of the order. -/
def lines (name : String) : Expr :=
  .member (.param (rowOf name "Order")) "Lines" (.sequence (.entity "OrderLine"))

/-- The lines of all orders. -/
def linesOfOrders (name : String) : Expr :=
  .call ⟨"Queryable", "Select", []⟩ none
    [.entitySet "Order", .quote (.lambda [rowOf name "Order"] (lines name))]
    (.queryable (.sequence (.entity "OrderLine")))

/-- The lines whose order number is the key of the named row. -/
def filteredLines (name : String) : Expr :=
  .call ⟨"Queryable", "Where", [.entity "OrderLine", .boolean]⟩ none
    [.entitySet "OrderLine", .quote (.lambda [rowOf "e" "OrderLine"]
      (.binary .eq (.member (.param (rowOf "e" "OrderLine")) "OrderId" .int32)
        (.member (.param (rowOf name "Order")) "Id" .int32)))]
    (.queryable (.entity "OrderLine"))

/-- The lines of an order `o` stay those of `o`. -/
theorem references_lines_of_o :
    (filteredLines "o").references (rowOf "o" "Order") = true := by
  have hexpand : (expand Sample.model [(rowOf "o" "Order", some (.root 0))] (fun _ => none)
      (lines "o")).Gives ⟨⟨{}, [], [.entity "Order"], 0⟩, []⟩ (filteredLines "o", none)
        ⟨⟨{}, [], [.entity "Order"], 0⟩, []⟩ := by
    unfold Gives
    cbv
  obtain ⟨owner, t, howner, hall⟩ := collection_keeps_owner_references hexpand
  have hrow : (expand Sample.model [(rowOf "o" "Order", some (.root 0))] (fun _ => none)
      (.param (rowOf "o" "Order"))).run.run ⟨⟨{}, [], [.entity "Order"], 0⟩, []⟩ =
        (.ok (.param (rowOf "o" "Order"), none), ⟨⟨{}, [], [.entity "Order"], 0⟩, []⟩) := by cbv
  cases howner.symm.trans hrow
  obtain ⟨-, -, hiff⟩ := hall Sample.order ⟨"Lines", "OrderLine", .many, false,
    [⟨"OrderId", "Id"⟩], false⟩ rfl (by cbv) (by cbv) rfl
  refine hiff.mpr (fun q hq => ?_) _ (by simp)
  rw [references_param, beq_iff_eq] at hq
  subst hq
  decide

/-- The lines of an order `e` come out as the lines whose order number is their own key: the filter
does not refer to the order any more. -/
theorem lines_of_e_captured :
    (Pass.navigation.run ⟨Sample.model, Sample.catalog⟩ (linesOfOrders "e")).Gives .fresh
      (.call ⟨"Queryable", "Select", []⟩ none
        [.entitySet "Order", .quote (.lambda [rowOf "e" "Order"] (filteredLines "e"))]
        (.queryable (.sequence (.entity "OrderLine"))))
      ⟨{}, [], [.entity "Order", .sequence (.entity "OrderLine")], 0⟩ ∧
    (expand Sample.model [(rowOf "e" "Order", some (.root 0))] (fun _ => none) (lines "e")).Gives
      ⟨⟨{}, [], [.entity "Order"], 0⟩, []⟩ (filteredLines "e", none)
      ⟨⟨{}, [], [.entity "Order"], 0⟩, []⟩ ∧
    (Expr.param (rowOf "e" "Order")).references (rowOf "e" "Order") = true ∧
    (filteredLines "e").references (rowOf "e" "Order") = false := by
  refine ⟨?_, ?_, ?_, ?_⟩
  · unfold Gives
    cbv
  · unfold Gives
    cbv
  · cbv
  · cbv

end Correlation

end QueryLowering
