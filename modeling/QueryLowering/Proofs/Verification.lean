import QueryLowering.Proofs.CacheTransparency
import QueryLowering.Proofs.Everywhere
import QueryLowering.Sample

/-!
What verification finds. A position in a tree is the list of the indices of the children on the way
to it; positions in lexicographic order go through the tree with parents before children and left
before right. Verification fails exactly if a node is left over that lowering should have removed,
and reports the one at the least position. So a compiler that verifies answers with no such node,
also from its cache.
-/

namespace QueryLowering

namespace Expr

/-- The node at a position. -/
def at? (e : Expr) : List Nat → Option Expr
  | [] => some e
  | i :: path => e.children[i]?.bind fun c => c.at? path

theorem at?_concat (e : Expr) (path : List Nat) (i : Nat) :
    e.at? (path ++ [i]) = (e.at? path).bind fun n => n.children[i]? := by
  induction path generalizing e with
  | nil => simp [at?]
  | cons j path ih =>
    rw [List.cons_append, at?, at?, Option.bind_assoc]
    exact congrArg _ (funext ih)

/-- All positions with their nodes, each before those of its children, from left to right. -/
def positions (e : Expr) : List (List Nat × Expr) :=
  ([], e) :: e.children.attach.zipIdx.flatMap fun c =>
    (positions c.1.1).map fun p => (c.2 :: p.1, p.2)
termination_by e
decreasing_by exact sizeOf_lt_of_mem_children c.1.2

theorem positions_eq (e : Expr) :
    e.positions = ([], e) :: e.children.zipIdx.flatMap fun c =>
      c.1.positions.map fun p => (c.2 :: p.1, p.2) := by
  rw [positions, zipIdx_eq_map_attach e.children, List.flatMap_map]

theorem map_snd_positions (e : Expr) : e.positions.map Prod.snd = e.nodes := by
  induction e using childInduction with
  | step e ih =>
    have hchildren : ∀ c ∈ e.children.zipIdx,
        (c.1.positions.map fun p => (c.2 :: p.1, p.2)).map Prod.snd = c.1.nodes := by
      intro c hc
      rw [List.map_map]
      exact ih c.1 (List.fst_mem_of_mem_zipIdx hc)
    rw [positions_eq, List.map_cons, List.map_flatMap, List.flatMap_congr hchildren, nodes_eq]
    conv => rhs; rw [← List.zipIdx_map_fst 0 e.children, List.flatMap_map]

/-- A position below the root is a position in one of the children. -/
theorem mem_positions_cons {e n : Expr} {i : Nat} {path : List Nat} :
    (i :: path, n) ∈ e.positions ↔ ∃ c, e.children[i]? = some c ∧ (path, n) ∈ c.positions := by
  rw [positions_eq, List.mem_cons, List.mem_flatMap]
  constructor
  · rintro (h | ⟨⟨c, j⟩, hc, h⟩)
    · cases h
    · obtain ⟨p, hp, h⟩ := List.mem_map.mp h
      cases h
      exact ⟨c, List.mem_zipIdx_iff_getElem?.mp hc, hp⟩
  · rintro ⟨c, hc, hn⟩
    refine .inr ⟨(c, i), List.mem_zipIdx_iff_getElem?.mpr hc, ?_⟩
    exact List.mem_map.mpr ⟨(path, n), hn, rfl⟩

theorem mem_positions {e n : Expr} {path : List Nat} :
    (path, n) ∈ e.positions ↔ e.at? path = some n := by
  induction path generalizing e with
  | nil =>
    rw [positions_eq]
    simp [at?, eq_comm]
  | cons i path ih =>
    rw [mem_positions_cons, at?, Option.bind_eq_some_iff]
    exact exists_congr fun c => and_congr_right fun _ => ih

theorem mem_nodes_iff {e n : Expr} : n ∈ e.nodes ↔ ∃ path, e.at? path = some n := by
  rw [← map_snd_positions, List.mem_map]
  constructor
  · rintro ⟨⟨path, m⟩, hp, rfl⟩
    exact ⟨path, mem_positions.mp hp⟩
  · rintro ⟨path, hpath⟩
    exact ⟨(path, n), mem_positions.mpr hpath, rfl⟩

/-- The positions are in lexicographic order. -/
theorem pairwise_positions (e : Expr) : e.positions.Pairwise fun p q => p.1 < q.1 := by
  induction e using childInduction with
  | step e ih =>
    have hindices : e.children.zipIdx.Pairwise fun c d => c.2 < d.2 := by
      rw [← List.pairwise_map, List.zipIdx_map_snd]
      exact List.pairwise_lt_range' 1
    rw [positions_eq, List.pairwise_cons, List.pairwise_flatMap]
    refine ⟨fun p hp => ?_, fun c hc => ?_, hindices.imp fun {c d} hcd p hp q hq => ?_⟩
    · -- The root comes first.
      obtain ⟨c, -, hp⟩ := List.mem_flatMap.mp hp
      obtain ⟨q, -, rfl⟩ := List.mem_map.mp hp
      exact List.nil_lt_cons _ _
    · -- Below one child, the order is that of the child.
      rw [List.pairwise_map]
      refine (ih c.1 (List.fst_mem_of_mem_zipIdx hc)).imp fun hpq => ?_
      exact List.cons_lt_cons_iff.mpr (.inr ⟨rfl, hpq⟩)
    · -- Below different children, their indices decide.
      obtain ⟨p, -, rfl⟩ := List.mem_map.mp hp
      obtain ⟨q, -, rfl⟩ := List.mem_map.mp hq
      exact List.cons_lt_cons_iff.mpr (.inl hcd)

/-- To look for the first node with a property is to look for the least position of one. -/
theorem findSome?_nodes_eq_some_iff {β : Type} {f : Expr → Option β} {e : Expr} {b : β} :
    e.nodes.findSome? f = some b ↔
      ∃ path n, e.at? path = some n ∧ f n = some b ∧
        ∀ path' < path, ∀ m, e.at? path' = some m → f m = none := by
  have hsorted := pairwise_positions e
  rw [List.findSome?_eq_some_iff, ← map_snd_positions]
  constructor
  · rintro ⟨before, n, after, hnodes, hn, hbefore⟩
    obtain ⟨ps, rest, hpositions, rfl, hrest⟩ := List.map_eq_append_iff.mp hnodes
    obtain ⟨⟨path, n⟩, qs, rfl, rfl, -⟩ := List.map_eq_cons_iff.mp hrest
    rw [hpositions, List.pairwise_append, List.pairwise_cons] at hsorted
    have hmem : (path, n) ∈ e.positions := hpositions ▸ List.mem_append_right _ List.mem_cons_self
    refine ⟨path, n, mem_positions.mp hmem, hn, fun path' hlt m hm => ?_⟩
    -- All that comes from here on in the list is at this position or at a greater one.
    have hm : (path', m) ∈ ps ++ (path, n) :: qs := hpositions ▸ mem_positions.mpr hm
    rcases List.mem_append.mp hm with hm | hm
    · exact hbefore m (List.mem_map_of_mem hm)
    · exfalso
      rcases List.mem_cons.mp hm with hm | hm
      · cases hm
        exact List.lt_irrefl path hlt
      · exact List.lt_asymm hlt (hsorted.2.1.1 _ hm)
  · rintro ⟨path, n, hn, hf, hleast⟩
    obtain ⟨ps, qs, hpositions⟩ := List.append_of_mem (mem_positions.mpr hn)
    refine ⟨ps.map Prod.snd, n, qs.map Prod.snd, by simp [hpositions], hf, ?_⟩
    intro m hm
    obtain ⟨⟨path', m⟩, hp, rfl⟩ := List.mem_map.mp hm
    have hmem : (path', m) ∈ e.positions := hpositions ▸ List.mem_append_left _ hp
    -- What comes before in the list is at a lesser position.
    rw [hpositions, List.pairwise_append] at hsorted
    have hlt : path' < path := hsorted.2.2 _ hp _ List.mem_cons_self
    exact hleast path' hlt m (mem_positions.mp hmem)

end Expr

namespace Verification

open QueryLowering.Expr

variable {model : Model} {e n : Expr}

/-- A node that lowering should have removed: an invocation of something with a known body, a
comparison of entities, or an access to a navigation. -/
inductive Leftover (model : Model) : Expr → Prop
  | lambda {params : List Param} {body : Expr} {args : List Expr} {type : DataType} :
      Leftover model (.invoke (.lambda params body) args type)
  | quote {inner : Expr} {args : List Expr} {type : DataType} :
      Leftover model (.invoke (.quote inner) args type)
  | delegate {name : String} {body : Expr} {args : List Expr} {type type' : DataType} :
      Leftover model (.invoke (.const (.delegate name (some body)) type') args type)
  | comparison {op : BinaryOp} {left right : Expr} {entity : String} :
      op = .eq ∨ op = .notEq → left.type = .entity entity ∨ right.type = .entity entity →
        Leftover model (.binary op left right)
  | navigation {target : Expr} {name : String} {type : DataType} {entity : Entity}
      {navigation : Navigation} :
      target.type = .entity entity.name → model.entity? entity.name = some entity →
        navigation ∈ entity.navigations → navigation.name = name →
          Leftover model (.member target name type)

theorem isInlinable_iff {callee : Expr} :
    isInlinable callee = true ↔
      (∃ params body, callee = .lambda params body) ∨ (∃ inner, callee = .quote inner) ∨
        ∃ name body type, callee = .const (.delegate name (some body)) type := by
  unfold isInlinable
  split <;> simp_all

theorem entityName?_eq_some_iff {type : DataType} {entity : String} :
    type.entityName? = some entity ↔ type = .entity entity := by
  cases type <;> simp [DataType.entityName?]

theorem isEquality_iff {op : BinaryOp} : op.isEquality = true ↔ op = .eq ∨ op = .notEq := by
  cases op <;> decide

theorem navigation?_isSome_iff {name member : String} :
    (model.navigation? name member).isSome = true ↔
      ∃ entity, model.entity? name = some entity ∧
        ∃ navigation ∈ entity.navigations, navigation.name = member := by
  unfold Model.navigation? Entity.navigation?
  cases model.entity? name with
  | none => simp
  | some entity => simp [List.find?_isSome]

theorem violation?_invoke_isSome_iff {callee : Expr} {args : List Expr} {type : DataType} :
    (violation? model (.invoke callee args type)).isSome = true ↔
      Leftover model (.invoke callee args type) := by
  have hviolation : (violation? model (.invoke callee args type)).isSome = true ↔
      isInlinable callee = true := by
    rw [violation?]
    split <;> simp_all
  rw [hviolation, isInlinable_iff]
  constructor
  · rintro (⟨_, _, rfl⟩ | ⟨_, rfl⟩ | ⟨_, _, _, rfl⟩)
    · exact .lambda
    · exact .quote
    · exact .delegate
  · intro h
    cases h with
    | lambda => exact .inl ⟨_, _, rfl⟩
    | quote => exact .inr (.inl ⟨_, rfl⟩)
    | delegate => exact .inr (.inr ⟨_, _, _, rfl⟩)

theorem violation?_binary_isSome_iff {op : BinaryOp} {left right : Expr} :
    (violation? model (.binary op left right)).isSome = true ↔
      Leftover model (.binary op left right) := by
  have hviolation : (violation? model (.binary op left right)).isSome = true ↔
      op.isEquality = true ∧
        ∃ entity, left.type = .entity entity ∨ right.type = .entity entity := by
    simp only [← entityName?_eq_some_iff, exists_or, ← Option.isSome_iff_exists]
    rw [violation?]
    split <;> simp_all
  rw [hviolation, isEquality_iff]
  constructor
  · rintro ⟨hop, entity, htype⟩
    exact .comparison hop htype
  · intro h
    cases h with
    | comparison hop htype => exact ⟨hop, _, htype⟩

theorem violation?_member_isSome_iff {target : Expr} {name : String} {type : DataType} :
    (violation? model (.member target name type)).isSome = true ↔
      Leftover model (.member target name type) := by
  have hviolation : (violation? model (.member target name type)).isSome = true ↔
      ∃ entity, target.type = .entity entity ∧ (model.navigation? entity name).isSome = true := by
    simp only [← entityName?_eq_some_iff]
    rw [violation?]
    cases target.type.entityName? with
    | none => simp
    | some entity => cases hn : model.navigation? entity name <;> simp [hn]
  rw [hviolation]
  simp only [navigation?_isSome_iff]
  constructor
  · rintro ⟨name', htype, entity, hentity, navigation, hnavigation, hname⟩
    -- An entity type is found under its own name.
    have hfound : entity.name = name' := by simpa using List.find?_some hentity
    subst hfound
    exact .navigation htype hentity hnavigation hname
  · intro h
    cases h with
    | navigation htype hentity hnavigation hname =>
      exact ⟨_, htype, _, hentity, _, hnavigation, hname⟩

/-- Every leftover node has a violation, and no other node has. -/
theorem violation?_isSome_iff : (violation? model n).isSome = true ↔ Leftover model n := by
  cases n with
  | invoke => exact violation?_invoke_isSome_iff
  | binary => exact violation?_binary_isSome_iff
  | member => exact violation?_member_isSome_iff
  | _ =>
    constructor
    · intro h
      cases h
    · intro h
      cases h

theorem violation?_eq_none_iff : violation? model n = none ↔ ¬ Leftover model n := by
  rw [← violation?_isSome_iff, Option.not_isSome_iff_eq_none]

/-- Verification fails with the first leftover node. -/
theorem verify_eq_error_iff {f : Failure} :
    verify model e = .error f ↔
      ∃ path n message, e.at? path = some n ∧ Leftover model n ∧
        (∀ path' < path, ∀ m, e.at? path' = some m → ¬ Leftover model m) ∧
        violation? model n = some message ∧ f = failure n message := by
  have hverify : verify model e = .error f ↔
      ∃ n message, firstViolation? model e = some (n, message) ∧ f = failure n message := by
    unfold verify
    cases firstViolation? model e with
    | none => simp
    | some v =>
      constructor
      · intro h
        cases h
        exact ⟨v.1, v.2, rfl, rfl⟩
      · rintro ⟨n, message, hv, rfl⟩
        cases hv
        rfl
  rw [hverify]
  unfold firstViolation?
  simp only [findSome?_nodes_eq_some_iff, Option.map_eq_none_iff, violation?_eq_none_iff]
  constructor
  · rintro ⟨n, message, ⟨path, m, hm, hmessage, hleast⟩, rfl⟩
    obtain ⟨text, htext, hpair⟩ := Option.map_eq_some_iff.mp hmessage
    cases hpair
    have hleftover : Leftover model n := violation?_isSome_iff.mp (by rw [htext]; rfl)
    exact ⟨path, n, message, hm, hleftover, hleast, htext, rfl⟩
  · rintro ⟨path, n, message, hn, -, hleast, hmessage, rfl⟩
    exact ⟨n, message, ⟨path, n, hn, by rw [hmessage]; rfl, hleast⟩, rfl⟩

/-- Verification succeeds exactly if nothing is left over. -/
theorem verify_eq_ok_iff : verify model e = .ok () ↔ e.Everywhere fun n => ¬ Leftover model n := by
  have hverify : verify model e = .ok () ↔ firstViolation? model e = none := by
    unfold verify
    cases firstViolation? model e <;> simp
  rw [hverify]
  unfold firstViolation? Everywhere
  simp only [List.findSome?_eq_none_iff, Option.map_eq_none_iff, violation?_eq_none_iff]

end Verification

namespace Compiler

open Verification

/-- What a compiler that verifies makes of a shape has passed verification. -/
theorem verify_of_lowerShape {context : Context} {settings : Settings} {shape : Expr}
    {entry : Entry} (hverify : settings.verifyResult = true)
    (h : lowerShape context settings shape = .ok entry) :
    verify context.model entry.expr = .ok () := by
  rw [lowerShape] at h
  obtain ⟨lowered, -, h⟩ := bind_eq_ok.mp h
  rw [if_pos hverify] at h
  obtain ⟨_, hok, h⟩ := bind_eq_ok.mp h
  cases h
  exact hok

/-- A compiler that verifies answers with trees that have no leftover node at any position, whatever
it was asked before. And verification fails exactly if there is such a node, with the first of them
in the order of positions. -/
theorem no_leftover_of_verified (context : Context) (settings : Settings)
    (requests : List Request) :
    (settings.verifyResult = true →
      ∀ e a, (((Compiler.new context settings).serveAll requests).compile e).1 = .ok a →
        ∀ path n, a.entry.expr.at? path = some n → ¬ Leftover context.model n) ∧
    ∀ e : Expr,
      ((∃ f, verify context.model e = .error f) ↔
        ∃ path n, e.at? path = some n ∧ Leftover context.model n) ∧
      ∀ f, verify context.model e = .error f ↔
        ∃ path n message, e.at? path = some n ∧ Leftover context.model n ∧
          (∀ path' < path, ∀ m, e.at? path' = some m → ¬ Leftover context.model m) ∧
          violation? context.model n = some message ∧ f = failure n message := by
  refine ⟨fun hverify e a ha path n hn => ?_, fun e => ⟨?_, fun f => verify_eq_error_iff⟩⟩
  · have hlower := (lowerShape_of_answer ha).1
    have hnone := verify_eq_ok_iff.mp (verify_of_lowerShape hverify hlower)
    exact hnone n (Expr.mem_nodes_iff.mpr ⟨path, hn⟩)
  · constructor
    · rintro ⟨f, hf⟩
      obtain ⟨path, n, -, hn, hleftover, -⟩ := verify_eq_error_iff.mp hf
      exact ⟨path, n, hn, hleftover⟩
    · rintro ⟨path, n, hn, hleftover⟩
      cases hresult : verify context.model e with
      | error f => exact ⟨f, rfl⟩
      | ok =>
        have hnone := verify_eq_ok_iff.mp hresult
        exact absurd hleftover (hnone n (Expr.mem_nodes_iff.mpr ⟨path, hn⟩))

/-- The customer of an order. -/
def customerOfOrder : Expr :=
  .member (.param ⟨"o", .entity "Order"⟩) "Customer" (.entity "Customer")

/-- The order has a customer. -/
def orderHasCustomer : Expr :=
  .binary .notEq customerOfOrder (.nullOf (.entity "Customer"))

/-- A new compiler of the sample that has been asked whether the order has a customer. -/
def askedForCustomer : Compiler :=
  (Compiler.new ⟨Sample.model, Sample.catalog⟩ {}).serveAll [.compile orderHasCustomer]

/-- The customer of the order is called Ruth, and there is a customer: a navigation and a comparison
of entities, the navigation further down and further to the left. -/
def ruthAndCustomer : Expr :=
  .binary .and
    (.binary .eq (.member customerOfOrder "Name" .utf8) (.literal (.utf8 "Ruth")))
    (.binary .notEq (.param ⟨"c", .entity "Customer"⟩) (.nullOf (.entity "Customer")))

/-- In the second answer to whether the order has a customer, which comes from the cache, neither the
navigation nor the comparison is left. Verification of a tree with both reports the navigation. -/
theorem no_leftover_of_cached_orderHasCustomer :
    (∃ a, (askedForCustomer.compile orderHasCustomer).1 = .ok a ∧ a.cached = true ∧
      ∀ path n, a.entry.expr.at? path = some n → ¬ Leftover Sample.model n) ∧
    verify Sample.model ruthAndCustomer =
      .error (failure customerOfOrder "Navigation Order.Customer was not expanded") ∧
    ∃ path n, ruthAndCustomer.at? path = some n ∧ Leftover Sample.model n ∧
      ∀ path' < path, ∀ m, ruthAndCustomer.at? path' = some m → ¬ Leftover Sample.model m := by
  have hanswer : (askedForCustomer.compile orderHasCustomer).1 =
      .ok ⟨⟨.unary .isNotNull (.member (.param ⟨"o", .entity "Order"⟩) "CustomerId" .int32), {},
        none⟩, [], true⟩ := by cbv
  have hverify : verify Sample.model ruthAndCustomer =
      .error (failure customerOfOrder "Navigation Order.Customer was not expanded") := by cbv
  obtain ⟨hanswers, hfirst⟩ :=
    no_leftover_of_verified ⟨Sample.model, Sample.catalog⟩ {} [.compile orderHasCustomer]
  obtain ⟨path, n, -, hn, hleftover, hleast, -⟩ := ((hfirst ruthAndCustomer).2 _).mp hverify
  exact ⟨⟨_, hanswer, rfl, hanswers rfl _ _ hanswer⟩, hverify, path, n, hn, hleftover, hleast⟩

end Compiler

end QueryLowering
