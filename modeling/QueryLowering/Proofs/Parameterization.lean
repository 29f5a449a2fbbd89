import QueryLowering.Proofs.CacheTransparency
import QueryLowering.Proofs.Extraction
import QueryLowering.Proofs.Placeholders.Lowering
import QueryLowering.Sample

/-!
Compiling a query by its shape. With the values of its parameters put in, the answer for a query
whose literals were extracted is the answer for the query itself, unless a null guard of a literal is
left, which only the extraction keeps. And all placeholders of an answer, new or from the cache, are
among its parameters, with the types of the literals that they stand for.
-/

namespace QueryLowering

open QueryLowering.Expr Literals StateStep

variable {e : Expr}

/-- The tags of markers are not extracted. -/
theorem properTag_extract (he : e.Unreserved) :
    (extract e).1.Everywhere Pass.Markers.ProperTag := by
  refine everywhere_extract he (fun _ _ _ _ => trivial) fun x cs hx hcs => ?_
  cases x with
  | call m receiver args type =>
    -- Whether or not there is a receiver, the second argument is not the first child.
    have htag : ∀ {args' : List Expr} {receiver' : Option Expr} {n : Nat},
        List.Forall₂ (fun c d => skips (.call m receiver args type) c.2 = true → d = c.1)
          (args.zipIdx n) args' → Pass.Markers.ProperTag (.call m receiver' args' type) := by
      intro args' receiver' n hforall
      rcases args with _ | ⟨source, _ | ⟨arg, rest⟩⟩
      · cases hforall
        trivial
      · obtain ⟨source', _, -, hnil, rfl⟩ := List.forall₂_cons_left_iff.mp hforall
        cases hnil
        trivial
      · obtain ⟨source', _, -, hrest, rfl⟩ := List.forall₂_cons_left_iff.mp hforall
        obtain ⟨arg', rest', hkept, -, rfl⟩ := List.forall₂_cons_left_iff.mp hrest
        intro hm p hp
        have hsame : arg' = arg := hkept (by simp [skips, hm])
        have harg : arg.Unreserved := hx.child (by simp [children])
        rw [← hsame, hp] at harg
        exact harg.param
    cases receiver with
    | none => exact htag hcs
    | some receiver =>
      obtain ⟨receiver', args', -, hrest, rfl⟩ := List.forall₂_cons_left_iff.mp hcs
      exact htag hrest
  | _ => exact Pass.Markers.properTag_of_kindName (by rw [kindName_setChildren]; simp [kindName])

namespace Compiler

/-- What an answer shows: the tree, read with the parameters of the answer, and the metadata; of a
failure, the kind. -/
def seen (read : List QueryParameter → Expr → Expr) (answer : Except Failure Compiled) :
    Except Failure.Kind (Expr × Metadata) :=
  match outcome answer with
  | .ok (entry, parameters) => .ok (read parameters entry.expr, entry.metadata)
  | .error f => .error f.kind

/-- An answer with the values of the parameters put into the tree. -/
def restored (answer : Except Failure Compiled) : Except Failure.Kind (Expr × Metadata) :=
  seen restore answer

/-- An answer with the tree as it is. -/
def shown (answer : Except Failure Compiled) : Except Failure.Kind (Expr × Metadata) :=
  seen (fun _ e => e) answer

/-- The compiler may put parameters for literals, or not. -/
def withParameterization (settings : Settings) (b : Bool) : Settings :=
  { settings with parameterizeLiterals := b }

/-- Extraction of literals makes no difference to what a query is compiled to, once the values are
put in again, if no null guard of a literal is left. In any case the passes before the removal of
null guards go alike, and the removal itself goes alike exactly if it leaves no such guard. -/
theorem compile_by_shape (ctx : Context) (settings : Settings) (he : e.Unreserved) :
    (LiteralsUnguarded ctx (restoring (extract e).2) (extract e).1 →
      restored ((Compiler.new ctx (withParameterization settings true)).compile e).1 =
        shown ((Compiler.new ctx (withParameterization settings false)).compile e).1) ∧
    ∀ r s, (Pass.runAll ctx Pass.beforeNullGuard (extract e).1).Gives .fresh r s →
      (Pass.runAll ctx Pass.beforeNullGuard e).Gives .fresh (restore (extract e).2 r) s ∧
      (Pass.NullGuard.run ctx.model (restore (extract e).2 r) =
          restore (extract e).2 (Pass.NullGuard.run ctx.model r) ↔
        ∀ n ∈ (Pass.NullGuard.run ctx.model r).nodes,
          ¬ Pass.NullGuard.LiteralGuard (restoring (extract e).2) n) := by
  have hf := standIns_restoring e
  have hclean := clean_extract he
  have htag := properTag_extract he
  have hback : (extract e).1.fill (restoring (extract e).2) = e :=
    restore_extract (avoids_of_unreserved he _)
  constructor
  · intro hguard
    -- New compilers answer without the cache: by lowering the shape, and by lowering the query.
    have hshape := (faithful_new ctx (withParameterization settings true)).outcome_compile e
    have hplain := (faithful_new ctx (withParameterization settings false)).outcome_compile e
    have hagree := agree_lowerShape hf settings hclean htag hguard
    rw [hback] at hagree
    -- Neither side looks at the setting once the shape is known.
    replace hshape : outcome _ = (lowerShape ctx settings (extract e).1).map
      fun entry => (entry, (extract e).2) := hshape
    replace hplain : outcome _ = (lowerShape ctx settings e).map fun entry => (entry, []) := hplain
    rw [restored, shown, seen, seen, hshape, hplain]
    generalize lowerShape ctx settings (extract e).1 = left at hagree ⊢
    generalize lowerShape ctx settings e = right at hagree ⊢
    cases hagree with
    | @ok a b hab =>
      obtain ⟨⟨-, hfill⟩, hmetadata⟩ := hab
      refine congrArg Except.ok (Prod.ext hfill.symm hmetadata.symm)
    | error hkind => exact congrArg Except.error hkind
  · intro r s hr
    have hagree : StateStep.Agree (fun _ => True) (Filled (restoring (extract e).2))
        (Pass.runAll ctx Pass.beforeNullGuard (extract e).1)
        (Pass.runAll ctx Pass.beforeNullGuard ((extract e).1.fill (restoring (extract e).2))) :=
      Pass.agree_runAll_beforeNullGuard hf hclean htag
    rw [hback] at hagree
    obtain ⟨r', hr', ⟨hrclean, rfl⟩, -⟩ := hagree.gives trivial hr
    exact ⟨hr', Pass.NullGuard.run_fill_iff hf hrclean⟩

/-- Seven, if there is a customer. -/
def sevenIfCustomer : Expr :=
  .cond (.unary .isNull (.param ⟨"c", .entity "Customer"⟩)) (.nullOf .int32) (.literal (.int32 7))
    .int32

/-- Seven, if five is not null. -/
def sevenIfFive : Expr :=
  .cond (.unary .isNull (.literal (.int32 5))) (.nullOf .int32) (.literal (.int32 7)) .int32

/-- The guard of the customer is dropped, be the seven a literal or a placeholder. -/
theorem compile_sevenIfCustomer :
    sevenIfCustomer.Unreserved ∧
      restored ((Compiler.new ⟨Sample.model, Sample.catalog⟩
        (withParameterization {} true)).compile sevenIfCustomer).1 =
      shown ((Compiler.new ⟨Sample.model, Sample.catalog⟩
        (withParameterization {} false)).compile sevenIfCustomer).1 := by
  have hnames : sevenIfCustomer.names = ["c"] := by cbv
  have hunreserved : sevenIfCustomer.Unreserved := unreserved_of_names hnames (by decide)
  refine ⟨hunreserved, (compile_by_shape _ _ hunreserved).1 fun r s hr => ?_⟩
  -- Nothing but the placeholder is left.
  have hrun : (Pass.runAll ⟨Sample.model, Sample.catalog⟩ Pass.beforeNullGuard
      (extract sevenIfCustomer).1).run.run .fresh =
        (.ok (.cond (.unary .isNull (.param ⟨"c", .entity "Customer"⟩)) (.nullOf .int32)
          (.param ⟨"__p_0", .int32⟩) .int32), .fresh) := by cbv
  rw [Gives, hrun] at hr
  cases hr
  have hremoved : (Pass.NullGuard.run Sample.model (.cond (.unary .isNull
      (.param ⟨"c", .entity "Customer"⟩)) (.nullOf .int32) (.param ⟨"__p_0", .int32⟩)
        .int32)).nodes = [.param ⟨"__p_0", .int32⟩] := by cbv
  rw [hremoved]
  simp [Pass.NullGuard.LiteralGuard]

/-- Without extraction the guard of five is dropped; with it, it stays. -/
theorem compile_sevenIfFive :
    sevenIfFive.Unreserved ∧
      restored ((Compiler.new ⟨Sample.model, Sample.catalog⟩
        (withParameterization {} true)).compile sevenIfFive).1 = .ok (sevenIfFive, {}) ∧
      shown ((Compiler.new ⟨Sample.model, Sample.catalog⟩
        (withParameterization {} false)).compile sevenIfFive).1 =
          .ok (.literal (.int32 7), {}) ∧
      sevenIfFive ≠ .literal (.int32 7) := by
  have hnames : sevenIfFive.names = [] := by cbv
  refine ⟨unreserved_of_names hnames (by decide), by cbv, by cbv, ?_⟩
  intro h
  cases h

/-- Another reserved name. -/
def otherName (name : String) : String :=
  if name = paramName 0 then paramName 1 else paramName 0

theorem otherName_ne (name : String) : otherName name ≠ name := by
  unfold otherName
  split
  · rename_i h
    rw [h]
    intro h
    cases paramName_injective h
  · rename_i h
    exact Ne.symm h

open Classical in
/-- Gives other names to the placeholders that do not have the given property. -/
noncomputable def renamed (S : Param → Prop) (p : Param) : Option Expr :=
  if Reserved p.name ∧ ¬ S p then some (.param ⟨otherName p.name, p.type⟩) else none

theorem renamed_eq_some {S : Param → Prop} {p : Param} {x : Expr} (h : renamed S p = some x) :
    Reserved p.name ∧ x = .param ⟨otherName p.name, p.type⟩ := by
  unfold renamed at h
  split at h
  · rename_i hp
    cases h
    exact ⟨hp.1, rfl⟩
  · cases h

theorem standIns_renamed (S : Param → Prop) : StandIns (renamed S) := by
  intro p x h
  obtain ⟨hp, rfl⟩ := renamed_eq_some h
  refine ⟨hp, .inr ⟨otherName p.name, ?_, rfl⟩⟩
  unfold otherName
  split
  · exact ⟨1, rfl⟩
  · exact ⟨0, rfl⟩

/-- A renamed puts no literals. -/
theorem literalsUnguarded_renamed (ctx : Context) (S : Param → Prop) (e : Expr) :
    LiteralsUnguarded ctx (renamed S) e := by
  intro r s _ n _ hguard
  cases n with
  | cond =>
    obtain ⟨p, value, -, -, v, hp⟩ := hguard
    cases (renamed_eq_some hp).2
  | _ => exact hguard

/-- Lowering makes no placeholders. It treats them all alike, so if a placeholder without a property
came out of a shape where all have it, it would have to come out under another name too. -/
theorem forall_placeholder_lowerShape {ctx : Context} {settings : Settings} {entry : Entry}
    {S : Param → Prop} (he : e.Clean) (htag : e.Everywhere Pass.Markers.ProperTag)
    (hS : ∀ p, .param p ∈ e.nodes → Reserved p.name → S p)
    (h : lowerShape ctx settings e = .ok entry) :
    entry.expr.Clean ∧ ∀ p, .param p ∈ entry.expr.nodes → Reserved p.name → S p := by
  have hf := standIns_renamed S
  have hkept : e.fill (renamed S) = e := by
    refine fill_eq_self fun p hp => if_neg ?_
    rintro ⟨hreserved, hnot⟩
    exact hnot (hS p hp hreserved)
  have hagree := agree_lowerShape hf settings he htag (literalsUnguarded_renamed ctx S e)
  rw [hkept, h] at hagree
  cases hagree with
  | ok hab =>
    obtain ⟨⟨hclean, hfill⟩, -⟩ := hab
    refine ⟨hclean, fun p hp hreserved => ?_⟩
    -- The shape is the same after renaming, so the result is, and no node of it is renamed.
    by_contra hnot
    have hnodes : entry.expr.nodes.map (fill (renamed S)) = entry.expr.nodes.map id := by
      rw [← hf.nodes_fill, ← hfill, List.map_id]
    have hsame : (Expr.param p).fill (renamed S) = .param p :=
      List.map_inj_left.mp hnodes (.param p) hp
    rw [fill_param, renamed, if_pos ⟨hreserved, hnot⟩] at hsame
    injection hsame with hsame
    exact otherName_ne p.name (congrArg Param.name hsame)

/-- Whatever a compiler was asked before, each placeholder of an answer, new or from the cache, has
the number of a parameter of the answer, and the value of that parameter is a literal of the query
with the type of the placeholder. No placeholder is bound by a lambda or hidden in a delegate. -/
theorem placeholders_of_compiled (ctx : Context) {settings : Settings}
    (hsettings : settings.parameterizeLiterals = true) (requests : List Request)
    (he : e.Unreserved) {a : Compiled}
    (ha : (((Compiler.new ctx settings).serveAll requests).compile e).1 = .ok a) :
    a.entry.expr.Clean ∧
      ∀ p, .param p ∈ a.entry.expr.nodes → ∀ k, p.name = paramName k →
        k < a.parameters.length ∧
          ∃ v, (extracted e)[k]? = some (v, p.type) ∧ a.parameters[k]? = some ⟨p.name, v⟩ := by
  have hshape : shapeOf settings e = extract e := if_pos hsettings
  obtain ⟨hlower, hparameters⟩ := lowerShape_of_answer ha
  rw [hshape] at hlower hparameters
  have hplaceholders := forall_placeholder_lowerShape (clean_extract he) (properTag_extract he)
    (fun p hp hreserved => exists_literal_of_placeholder he hp hreserved) hlower
  rw [hparameters, extract_parameters]
  refine ⟨hplaceholders.1, fun p hp k hname => ?_⟩
  obtain ⟨j, v, hj, hliteral⟩ := hplaceholders.2 p hp ⟨k, hname⟩
  obtain rfl : k = j := paramName_injective (hname.symm.trans hj)
  have hlt : k < (extracted e).length := (List.getElem?_eq_some_iff.mp hliteral).1
  refine ⟨(length_numberedFrom 0 _).symm ▸ hlt, v, hliteral, ?_⟩
  rw [getElem?_numberedFrom, hliteral, hname]
  rfl

/-- A new compiler of the sample that has been asked for the sum of a parameter and six. -/
def askedForPlusSix : Compiler :=
  (Compiler.new ⟨Sample.model, Sample.catalog⟩ {}).serveAll
    [.compile (.binary .add (.param ⟨"x", .int32⟩) (.literal (.int32 6)))]

/-- The answer for the sum of the parameter and five comes from the cache, and its placeholder is for
the five. -/
theorem placeholders_of_cached_paramPlusFive :
    ∃ a, (askedForPlusSix.compile (paramPlusFive "x")).1 = .ok a ∧ a.cached = true ∧
      .param ⟨"__p_0", .int32⟩ ∈ a.entry.expr.nodes ∧ 0 < a.parameters.length ∧
      ∃ v, (extracted (paramPlusFive "x"))[0]? = some (v, .int32) ∧
        a.parameters[0]? = some ⟨"__p_0", v⟩ := by
  have hnames : (paramPlusFive "x").names = ["x"] := by cbv
  have hunreserved : (paramPlusFive "x").Unreserved := unreserved_of_names hnames (by decide)
  have hanswer : (askedForPlusSix.compile (paramPlusFive "x")).1 =
      .ok ⟨⟨.binary .add (.param ⟨"x", .int32⟩) (.param ⟨"__p_0", .int32⟩), {}, none⟩,
        [⟨"__p_0", .scalar (.int32 5)⟩], true⟩ := by cbv
  have hmem : .param ⟨"__p_0", .int32⟩ ∈
      (Expr.binary .add (.param ⟨"x", .int32⟩) (.param ⟨"__p_0", .int32⟩)).nodes := by
    simp [nodes_eq, children]
  have hsettings : ({} : Settings).parameterizeLiterals = true := rfl
  have hplaceholders := (placeholders_of_compiled ⟨Sample.model, Sample.catalog⟩ hsettings _
    hunreserved hanswer).2 _ hmem 0 (by cbv)
  exact ⟨_, hanswer, rfl, hmem, hplaceholders⟩

end Compiler

end QueryLowering
