import Mathlib
import QueryLowering.Proofs.CacheTransparency
import QueryLowering.Proofs.Extraction
import QueryLowering.Proofs.Failures
import QueryLowering.Sample

/-!
Diagnostics of the compiler. A compilation that fails was ended by the first pass that fails, or by
verification, and the failure names it: it is what the pass raised, with the name of the pass put
behind. Which failures name a node, too, is decided by the pass.
-/

namespace QueryLowering

open Failure StateStep

/-- If steps that cannot fail do the same as steps that can, then so do their traversals. -/
theorem StateStep.gives_mapM_of_run {σ α β : Type} {f : α → StateStep σ β} {g : α → StateM σ β}
    {xs : List α} (h : ∀ x ∈ xs, ∀ s, (f x).Gives s ((g x).run s).1 ((g x).run s).2) (s : σ) :
    (xs.mapM f).Gives s ((xs.mapM g).run s).1 ((xs.mapM g).run s).2 := by
  induction xs generalizing s with
  | nil => exact gives_mapM_nil.mpr ⟨rfl, rfl⟩
  | cons x xs ih =>
    have hrest := ih (fun x hx => h x (List.mem_cons_of_mem _ hx)) ((g x).run s).2
    rw [List.mapM_cons (f := g)]
    exact gives_mapM_cons.mpr ⟨_, _, _, h x List.mem_cons_self s, hrest, rfl⟩

namespace Literals

/-- Extraction that counts the children wherever it rebuilds a node, and fails if their number has
changed. -/
def extractChecked (e : Expr) : StateStep (List QueryParameter) Expr :=
  match e with
  | .const value type =>
    if isLiteral value then
      modifyGet fun ps =>
        (.param ⟨paramName ps.length, type⟩, ps ++ [⟨paramName ps.length, value⟩])
    else return .const value type
  | e => do
    let cs ← e.children.attach.zipIdx.mapM fun c =>
      if skips e c.2 then return c.1.1 else extractChecked c.1.1
    StateStep.ofExcept (e.withChildren cs)
termination_by e
decreasing_by exact Expr.sizeOf_lt_of_mem_children c.1.2

theorem extractChecked_node {e : Expr} (h : isLiteralNode e = false) :
    extractChecked e = (do
      let cs ← e.children.zipIdx.mapM fun c =>
        if skips e c.2 then return c.1 else extractChecked c.1
      StateStep.ofExcept (e.withChildren cs)) := by
  cases e with
  | const v type =>
    rw [extractChecked, if_neg (by simpa [isLiteralNode] using h)]
    rfl
  | _ =>
    rw [extractChecked]
    · rw [zipIdx_eq_map_attach (Expr.children _), List.mapM_map]
      rfl
    all_goals
      intros
      contradiction

/-- The number of children never changes, so the check never fails. -/
theorem extractChecked_gives (e : Expr) (ps : List QueryParameter) :
    (extractChecked e).Gives ps ((extractM e).run ps).1 ((extractM e).run ps).2 := by
  induction e using literalInduction generalizing ps with
  | literal v type hliteral =>
    have hv : isLiteral v = true := hliteral
    rw [extractChecked, if_pos hv, run_extractM_literal hv]
    exact gives_modifyGet.mpr rfl
  | node e hliteral ih =>
    have hstep : ∀ c ∈ e.children.zipIdx, ∀ s,
        (if skips e c.2 then return c.1 else extractChecked c.1).Gives s
          ((if skips e c.2 then return c.1 else extractM c.1).run s).1
          ((if skips e c.2 then return c.1 else extractM c.1).run s).2 := by
      intro c hc s
      split
      · exact gives_pure.mpr ⟨rfl, rfl⟩
      · exact ih c.1 (List.fst_mem_of_mem_zipIdx hc) s
    have hchildren := gives_mapM_of_run hstep ps
    rw [extractChecked_node hliteral, extractM_node hliteral]
    have hlen := (Gives.forall₂ (fun _ _ => True) hchildren fun _ _ _ _ _ _ => trivial).length_eq
    rw [List.length_zipIdx] at hlen
    exact gives_bind.mpr ⟨_, _, hchildren,
      gives_ofExcept.mpr ⟨Expr.withChildren_eq_ok.mpr ⟨hlen.symm, rfl⟩, rfl⟩⟩

end Literals

namespace Pass

variable {ctx : Context} {e : Expr} {s s' : State}

/-- The first pass that fails when all run one after the other, each on what the one before has made
of the tree and over one state, and what it raises. -/
def FirstToFail (ctx : Context) (e : Expr) (p : Pass) (g : Failure) : Prop :=
  ∃ before after outs s s', all = before ++ p :: after ∧
    series ctx before e .fresh = (outs, none, s) ∧
    (p.run ctx (outs.getLastD e)).run.run s = (.error g, s')

theorem series_cons_of_gives {p : Pass} {ps : List Pass} {r : Expr} {t : State}
    (h : (p.run ctx e).Gives s r t) :
    series ctx (p :: ps) e s =
      (r :: (series ctx ps r t).1, (series ctx ps r t).2.1, (series ctx ps r t).2.2) := by
  unfold Gives at h
  rw [series, h]

theorem exists_series_of_gives {ps : List Pass} {r : Expr} (h : (runAll ctx ps e).Gives s r s') :
    ∃ outs, series ctx ps e s = (outs, none, s') ∧ outs.getLastD e = r := by
  induction ps generalizing e s with
  | nil =>
    obtain ⟨rfl, rfl⟩ := gives_runAll_nil.mp h
    exact ⟨[], rfl, rfl⟩
  | cons p ps ih =>
    obtain ⟨e₁, t, hp, h⟩ := gives_runAll_cons.mp h
    obtain ⟨outs, hseries, hlast⟩ := ih h
    refine ⟨e₁ :: outs, ?_, ?_⟩
    · rw [series_cons_of_gives hp, hseries]
    · rw [List.getLastD_cons]
      exact hlast

/-- If a series of passes fails, then it splits into passes that succeed and one that fails. -/
theorem exists_failing_of_error {ps : List Pass} {f : Failure}
    (h : (runAll ctx ps e).run.run s = (.error f, s')) :
    ∃ before p after outs t g t', ps = before ++ p :: after ∧
      series ctx before e s = (outs, none, t) ∧
      (p.run ctx (outs.getLastD e)).run.run t = (.error g, t') ∧
      f = g.withFieldIfAbsent passField p.name := by
  induction ps generalizing e s with
  | nil => cases h
  | cons p ps ih =>
    rw [runAll, run_bind, run_runNamed] at h
    rcases hp : (p.run ctx e).run.run s with ⟨g | r, t⟩
    · rw [hp] at h
      cases h
      exact ⟨[], p, ps, [], s, g, s', rfl, rfl, hp, rfl⟩
    · rw [hp] at h
      obtain ⟨before, q, after, outs, u, g, u', rfl, hseries, hq, hf⟩ := ih h
      refine ⟨p :: before, q, after, r :: outs, u, g, u', rfl, ?_, ?_, hf⟩
      · rw [series_cons_of_gives hp, hseries]
      · rw [List.getLastD_cons]
        exact hq

theorem name_injective : Function.Injective Pass.name := by
  intro p q h
  cases p <;> cases q <;> first | rfl | exact absurd h (by decide)

end Pass

/-- A lowering that fails was ended by a pass, and fails with what that raised and its name. -/
theorem exists_firstToFail_of_lower {ctx : Context} {e : Expr} {f : Failure}
    (h : lower ctx e = .error f) :
    ∃ p g, Pass.FirstToFail ctx e p g ∧ p.Raises g ∧ f = g.withField passField p.name := by
  have herror : ∃ s', (Pass.runAll ctx Pass.all e).run.run .fresh = (.error f, s') := by
    unfold lower at h
    rcases hrun : (Pass.runAll ctx Pass.all e).run.run .fresh with ⟨g | r, t⟩
    · rw [hrun] at h
      cases h
      exact ⟨t, rfl⟩
    · rw [hrun] at h
      cases h
  obtain ⟨s', herror⟩ := herror
  obtain ⟨before, p, after, outs, t, g, t', hall, hseries, hp, rfl⟩ :=
    Pass.exists_failing_of_error herror
  have hraises : p.Raises g := by
    have honly := Pass.failsOnly_run ctx p (outs.getLastD e) t
    rw [hp] at honly
    exact honly g rfl
  refine ⟨p, g, ⟨before, after, outs, t, t', hall, hseries, hp⟩, hraises, ?_⟩
  -- The pass has not named itself, so its name is put behind the other fields.
  have habsent : ¬ (g.field? passField).isSome = true :=
    fun hmem => hraises.not_mem_passField (isSome_field?_iff.mp hmem)
  rw [withFieldIfAbsent, if_neg habsent]

namespace Verification

theorem exists_failure_of_verify {model : Model} {e : Expr} {f : Failure}
    (h : verify model e = .error f) : ∃ n message, f = failure n message := by
  unfold verify at h
  split at h
  · cases h
    exact ⟨_, _, rfl⟩
  · cases h

theorem fieldNames_failure (node : Expr) (message : String) :
    (failure node message).fieldNames = [passField, nodeField] := rfl

end Verification

namespace Compiler

variable {c : Compiler} {e : Expr} {f : Failure}

theorem lowerShape_of_error (h : (c.compile e).1 = .error f) :
    lowerShape c.context c.settings (shapeOf c.settings e).1 = .error f := by
  cases hcache : c.settings.cacheQueries with
  | false =>
    rw [compile_of_not_cacheQueries hcache] at h
    cases hlower : lowerShape c.context c.settings (shapeOf c.settings e).1 with
    | ok entry =>
      rw [hlower] at h
      cases h
    | error g =>
      rw [hlower] at h
      cases h
      rfl
  | true =>
    obtain ⟨shape, parameters, hshape, ⟨entry, -, hc⟩ | ⟨entry, -, hc⟩ | ⟨g, -, hlower, hc⟩⟩ :=
      compile_cases hcache e
    · rw [hc] at h
      cases h
    · rw [hc] at h
      cases h
    · rw [hc] at h
      cases h
      rw [hshape]
      exact hlower

/-- A new compiler fails where the shape of the query cannot be lowered. -/
theorem compile_new_of_error {context : Context} {settings : Settings}
    (h : lowerShape context settings (shapeOf settings e).1 = .error f) :
    ((Compiler.new context settings).compile e).1 = .error f := by
  have houtcome := (faithful_new context settings).outcome_compile e
  have hplain : plainOutcome context settings e = .error f := by
    rw [plainOutcome, h]
    rfl
  cases hcompile : ((Compiler.new context settings).compile e).1 with
  | ok a =>
    rw [hcompile] at houtcome
    cases houtcome.trans hplain
  | error g =>
    rw [hcompile] at houtcome
    cases houtcome.trans hplain
    rfl

/-- A compilation fails in a pass or in verification. -/
theorem failure_cases (h : (c.compile e).1 = .error f) :
    (∃ p g, Pass.FirstToFail c.context (shapeOf c.settings e).1 p g ∧ p.Raises g ∧
      f = g.withField passField p.name) ∨
    ∃ outs s, Pass.series c.context Pass.all (shapeOf c.settings e).1 .fresh = (outs, none, s) ∧
      c.settings.verifyResult = true ∧
      Verification.verify c.context.model (outs.getLastD (shapeOf c.settings e).1) = .error f := by
  have hshape := lowerShape_of_error h
  generalize (shapeOf c.settings e).1 = shape at hshape ⊢
  unfold lowerShape at hshape
  cases hlower : lower c.context shape with
  | error g =>
    rw [hlower] at hshape
    cases hshape
    exact .inl (exists_firstToFail_of_lower hlower)
  | ok l =>
    rw [hlower] at hshape
    obtain ⟨s, hrun, -⟩ := lower_eq_ok.mp hlower
    obtain ⟨outs, hseries, hlast⟩ := Pass.exists_series_of_gives hrun
    refine .inr ⟨outs, s, hseries, ?_⟩
    rw [hlast]
    -- All passes have run, so what failed is the check of the result.
    change (do
      if c.settings.verifyResult then Verification.verify c.context.model l.expr
      return _) = Except.error f at hshape
    cases hverify : c.settings.verifyResult with
    | false =>
      rw [hverify] at hshape
      cases hshape
    | true =>
      rw [hverify, if_pos rfl] at hshape
      cases hresult : Verification.verify c.context.model l.expr with
      | ok u =>
        rw [hresult] at hshape
        cases hshape
      | error g =>
        rw [hresult] at hshape
        cases hshape
        exact ⟨rfl, rfl⟩

theorem pass?_withField {g : Failure} {name : String} (h : passField ∉ g.fieldNames) :
    (g.withField passField name).pass? = some name := by
  have hnone : g.fields.lookup passField = none := by
    rw [← Option.not_isSome_iff_eq_none]
    exact fun hmem => h (isSome_field?_iff.mp hmem)
  simp [pass?, field?, List.lookup_append, hnone]

/-- A compilation that fails names its pass once. The pass is the first of the ten that fails, and the
failure is what that raised with the name put behind; or all ten succeed and it is verification.
Nothing fails before the passes: the extraction of literals gives a result for every tree, even if it
counts the children of each node that it rebuilds. -/
theorem failed_compile_names_pass (c : Compiler) (e : Expr) :
    (∀ ps, (Literals.extractChecked e).Gives ps ((Literals.extractM e).run ps).1
      ((Literals.extractM e).run ps).2) ∧
    ∀ f, (c.compile e).1 = .error f →
      f.fieldNames.count passField = 1 ∧
        ((∃ p g, Pass.FirstToFail c.context (shapeOf c.settings e).1 p g ∧
            f = g.withField passField p.name ∧ f.pass? = some p.name) ∨
          ∃ outs s, Pass.series c.context Pass.all (shapeOf c.settings e).1 .fresh =
              (outs, none, s) ∧ c.settings.verifyResult = true ∧
            Verification.verify c.context.model (outs.getLastD (shapeOf c.settings e).1) = .error f ∧
            f.pass? = some Verification.passName) := by
  refine ⟨Literals.extractChecked_gives e, fun f h => ?_⟩
  rcases failure_cases h with ⟨p, g, hfirst, hraises, rfl⟩ | ⟨outs, s, hseries, hverify, hresult⟩
  · have habsent := hraises.not_mem_passField
    refine ⟨?_, .inl ⟨p, g, hfirst, rfl, pass?_withField habsent⟩⟩
    rw [fieldNames_withField, List.count_append, List.count_eq_zero_of_not_mem habsent]
    simp
  · obtain ⟨n, message, rfl⟩ := Verification.exists_failure_of_verify hresult
    refine ⟨?_, .inr ⟨outs, s, hseries, hverify, hresult, rfl⟩⟩
    rw [Verification.fieldNames_failure]
    decide

/-- A compiler of the sample. -/
def ofSample : Compiler := Compiler.new ⟨Sample.model, Sample.catalog⟩ {}

/-- A delegate that compares a customer with an order. The comparison is in the tree only once the
delegate has been inlined. -/
def customerIsOrder : Expr :=
  let c : Param := ⟨"c", .entity "Customer"⟩
  let o : Param := ⟨"o", .entity "Order"⟩
  .apply (.delegate "same" (.lambda [c, o] (.binary .eq (.param c) (.param o)))) [.param c, .param o]

def customerIsOrderFailure : Failure :=
  ⟨.incompatibleEntities, "Cannot compare entities of type Customer and Order",
    [("node", "(c == o)"), ("pass", "entity_equality")], none⟩

theorem pass_of_customerIsOrder :
    (ofSample.compile customerIsOrder).1 = .error customerIsOrderFailure ∧
      customerIsOrderFailure.fieldNames.count passField = 1 ∧
      ∃ g, Pass.FirstToFail ofSample.context (shapeOf ofSample.settings customerIsOrder).1
          .keyComparison g ∧
        customerIsOrderFailure = g.withField passField Pass.keyComparison.name := by
  have h : (ofSample.compile customerIsOrder).1 = .error customerIsOrderFailure := by cbv
  obtain ⟨hcount, ⟨p, g, hfirst, hf, hpass⟩ | ⟨_, _, _, _, _, hpass⟩⟩ :=
    (failed_compile_names_pass ofSample customerIsOrder).2 _ h
  · have hp : p = .keyComparison := Pass.name_injective (Option.some.inj hpass).symm
    subst hp
    exact ⟨h, hcount, g, hfirst, hf⟩
  · exact absurd hpass (by decide)

theorem isSome_node?_withField {g : Failure} {name : String} :
    (g.withField passField name).node?.isSome = true ↔ nodeField ∈ g.fieldNames := by
  have hne : nodeField ≠ passField := by decide
  unfold node?
  rw [isSome_field?_iff, fieldNames_withField]
  simp [hne]

/-- A compilation that fails, if not for an error of the program, names its pass. It names a node
exactly if the pass is none of the four that build operator calls: where such a call cannot be built,
the failure is the one of the call, of an unsupported shape, and no node is attached to it. -/
theorem failed_compile_names_node_iff {c : Compiler} {e : Expr} {f : Failure}
    (h : (c.compile e).1 = .error f) (hkind : f.kind ≠ .internal) :
    f.pass?.isSome = true ∧
      (f.node?.isSome = true ↔ ∀ p ∈ Pass.callingOperators, f.pass? ≠ some p.name) ∧
      (f.node? = none → f.kind = .unsupportedShape) := by
  rcases failure_cases h with ⟨p, g, -, hraises, rfl⟩ | ⟨outs, s, -, -, hresult⟩
  · rw [kind_withField] at hkind
    rw [pass?_withField hraises.not_mem_passField, ← Option.not_isSome_iff_eq_none,
      isSome_node?_withField]
    refine ⟨rfl, ?_⟩
    by_cases hp : p ∈ Pass.callingOperators
    · have hoperator := hraises.fromOperator hp
      refine ⟨⟨fun hnode => absurd hnode hoperator.not_mem_nodeField, fun hall => ?_⟩, fun _ => ?_⟩
      · exact absurd rfl (hall p hp)
      · exact hoperator.kind.resolve_right hkind
    · have hnode := (hraises.atNode hp hkind).node
      refine ⟨⟨fun _ q hq heq => ?_, fun _ => hnode⟩, fun hnone => absurd hnode hnone⟩
      exact hp (Pass.name_injective (Option.some.inj heq) ▸ hq)
  · obtain ⟨n, message, rfl⟩ := Verification.exists_failure_of_verify hresult
    have hpass : ∀ p ∈ Pass.callingOperators, some Verification.passName ≠ some p.name := by decide
    exact ⟨rfl, ⟨fun _ => hpass, fun _ => rfl⟩, fun _ => rfl⟩

/-- The comparison of a customer with an order fails at a node, in a pass that builds no operator
calls. -/
theorem node_of_customerIsOrder :
    (ofSample.compile customerIsOrder).1 = .error customerIsOrderFailure ∧
      customerIsOrderFailure.kind ≠ .internal ∧
      (customerIsOrderFailure.node?.isSome = true ↔
        ∀ p ∈ Pass.callingOperators, customerIsOrderFailure.pass? ≠ some p.name) := by
  have h : (ofSample.compile customerIsOrder).1 = .error customerIsOrderFailure := by cbv
  have hkind : customerIsOrderFailure.kind ≠ .internal := by decide
  exact ⟨h, hkind, (failed_compile_names_node_iff h hkind).2.1⟩

/-- Are the lines of any order all lines? Elements that are sequences are compared with a query. -/
def someOrderHasAllLines : Expr :=
  let o : Param := ⟨"o", .entity "Order"⟩
  let lines : DataType := .sequence (.entity "OrderLine")
  .call ⟨"Queryable", "Any", [lines, .boolean]⟩ none
    [.call ⟨"Queryable", "Select", [.entity "Order", lines]⟩ none
      [.entitySet "Order", .quote (.lambda [o] (.member (.param o) "Lines" lines))]
      (.queryable lines),
     .quote (.lambda [⟨"l", lines⟩] (.binary .eq (.param ⟨"l", lines⟩) (.entitySet "OrderLine")))]
    .boolean

def someOrderHasAllLinesFailure : Failure :=
  ⟨.unsupportedShape, "No operator overload for Queryable.Contains",
    [("shapes", "[Queryable, Queryable]"), ("pass", "all_any_to_contains")], none⟩

/-- No overload tells whether a query contains another, and the failure does not tell where one was
wanted. -/
theorem compile_someOrderHasAllLines :
    (ofSample.compile someOrderHasAllLines).1 = .error someOrderHasAllLinesFailure ∧
      someOrderHasAllLinesFailure.kind ≠ .internal ∧
      someOrderHasAllLinesFailure.node? = none := by
  refine ⟨?_, by decide, rfl⟩
  apply compile_new_of_error
  have hnodes : (someOrderHasAllLines.nodes.all fun n => !Literals.isLiteralNode n) = true := by cbv
  have hliterals : ∀ n ∈ someOrderHasAllLines.nodes, Literals.isLiteralNode n = false := by
    intro n hn
    simpa using List.all_eq_true.mp hnodes n hn
  have hshape : shapeOf {} someOrderHasAllLines = (someOrderHasAllLines, []) :=
    Literals.extract_eq_self hliterals
  rw [hshape]
  cbv

end Compiler

end QueryLowering
