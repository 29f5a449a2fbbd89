import QueryLowering.Proofs.Persistence.Navigation
import QueryLowering.Proofs.Pipeline

/-!
Persistent properties outlast passes. Every pass but inlining builds its result from nodes that it
was given and from ordinary nodes, so what holds of all nodes before such a pass, or before a series
of them, holds of all nodes after it.
-/

namespace QueryLowering.Pass

open QueryLowering.Expr StateStep

variable {Q : Expr → Prop} {e r : Expr}

theorem Markers.record_of_note {marker : Marker} {arg : Option Expr} {node : Expr}
    {t t' : Metadata} {u : Unit} (h : (note marker arg node).Gives t u t') :
    record marker arg t = some t' := by
  unfold note at h
  obtain ⟨t₁, t₂, ht, hset⟩ := gives_bind.mp h
  obtain ⟨rfl, rfl⟩ := gives_get.mp ht
  cases hrecord : record marker arg t₂ with
  | none =>
    rw [hrecord] at hset
    exact absurd hset not_gives_throw
  | some recorded =>
    rw [hrecord] at hset
    rw [gives_set.mp hset]

/-- Either a node is no marker and its children are gone through, or it is a marker, and then what its
first argument becomes stands for it and the marker is recorded after that argument. -/
theorem Markers.strip_cases {t t' : Metadata} (h : (strip e).Gives t r t') :
    (e.marker? = none ∧ (e.traverse fun c _ => strip c).Gives t r t') ∨
      ∃ method receiver source rest type marker u, e = .call method receiver (source :: rest) type ∧
        Marker.of? method = some marker ∧ (strip source).Gives t r u ∧
        record marker rest.head? u = some t' := by
  cases e with
  | call method receiver args type =>
    cases hm : Marker.of? method with
    | none =>
      rw [strip_call hm] at h
      exact .inl ⟨hm, h⟩
    | some marker =>
      cases args with
      | nil =>
        rw [strip_marker_nil hm] at h
        exact absurd h not_gives_throw
      | cons source rest =>
        rw [strip_marker hm] at h
        obtain ⟨source', u, hsource, h⟩ := gives_bind.mp h
        obtain ⟨_, u', hnote, h⟩ := gives_bind.mp h
        obtain ⟨rfl, rfl⟩ := gives_pure.mp h
        exact .inr ⟨method, receiver, source, rest, type, marker, u, rfl, hm, hsource,
          record_of_note hnote⟩
  | _ =>
    rw [strip_eq_traverse (by simp [kindName])] at h
    exact .inl ⟨rfl, h⟩

/-- Taking out markers puts in nothing and leaves no marker. -/
theorem Markers.everywhere_strip (hset : ∀ e cs, Q e → Q (e.setChildren cs)) {t t' : Metadata}
    (he : e.Everywhere Q) (h : (strip e).Gives t r t') :
    r.Everywhere fun n => Q n ∧ n.marker? = none := by
  induction e using childInduction generalizing t t' r with
  | step e ih =>
    rcases strip_cases h with
      ⟨hm, h⟩ | ⟨method, receiver, source, rest, type, marker, u, rfl, -, hsource, -⟩
    · refine (everywhere_traverse (I := fun _ => True)
        (fun e cs hn => ⟨hset e cs hn.1, (marker?_setChildren e cs).trans hn.2⟩) ⟨he.root, hm⟩
        (fun c hc t r t' _ h => ⟨ih c hc (he.child hc) h, trivial⟩) trivial h).1
    · exact ih source (by simp [children]) (he.child (by simp [children])) hsource

namespace DatabaseFunction

/-- A call is resolved to a call of a function that gives a value, or to one of a function that gives
rows, under the next alias. -/
theorem resolveCall_cases {set : FunctionSet} {position : Position} {args : List Expr} {node : Expr}
    {s s' : State} (h : (resolveCall set position args node).Gives s r s') :
    (∃ f, set.resolve (args.map Expr.type) = .ok f ∧ f.isTableValued = false ∧
        r = .functionCall f args ∧ s' = s) ∨
      ∃ f, set.resolve (args.map Expr.type) = .ok f ∧ f.isTableValued = true ∧ position = .rows ∧
        r = .tableFunction ⟨s.nextAlias⟩ f args ∧ s' = s.takeAlias.2 := by
  unfold resolveCall at h
  obtain ⟨f, t, hf, hcall⟩ := gives_bind.mp h
  obtain ⟨hresult, rfl⟩ := gives_ofExcept.mp hf
  have hresolved := mapError_eq_ok.mp hresult
  cases hkind : f.isTableValued with
  | false =>
    rw [hkind] at hcall
    exact .inl ⟨f, hresolved, hkind, gives_pure.mp hcall⟩
  | true =>
    rw [hkind] at hcall
    by_cases hrows : position = .rows
    · rw [if_neg (by decide), if_pos hrows] at hcall
      obtain ⟨a, t', ha, hnode⟩ := gives_bind.mp hcall
      obtain ⟨rfl, rfl⟩ := gives_pure.mp hnode
      have ha := gives_modifyGet.mp ha
      cases ha
      exact .inr ⟨f, hresolved, hkind, hrows, rfl, rfl⟩
    · rw [if_neg (by decide), if_neg hrows] at hcall
      exact absurd hcall not_gives_throw

/-- The parts of a node that are resolved: of a call of a function, its arguments. -/
def parts (catalog : Catalog) : Expr → List Expr
  | .call m receiver args _ =>
    if (catalog.find? m).isSome then args else receiver.toList ++ args
  | e => e.children

theorem mem_children_of_mem_parts {catalog : Catalog} {c : Expr} (h : c ∈ parts catalog e) :
    c ∈ e.children := by
  unfold parts at h
  split at h
  · split at h
    · exact List.mem_append_right _ h
    · exact h
  · exact h

/-- The position in which a part of a node stands. -/
def partPosition (catalog : Catalog) (position : Position) (e : Expr) (i : Nat) (c : Expr) :
    Position :=
  match e with
  | .call m _ args _ =>
    if (catalog.find? m).isNone ∧ (Operator.findFor? m args).isSome then argPosition m.name i c
    else .value
  | .quote _ => if position = .rowsSelector then .rowsSelector else .value
  | .lambda .. => if position = .rowsSelector then .rows else .value
  | e => childPosition e i

/-- The node is no call of a function, and no call of an operator with a receiver. -/
def Kept (catalog : Catalog) (e : Expr) : Prop :=
  ∀ m receiver args type, e = .call m receiver args type →
    catalog.find? m = none ∧ ((Operator.findFor? m args).isSome = true → receiver = none)

theorem kept_of_kindName {catalog : Catalog} (h : e.kindName ≠ "MethodCall") : Kept catalog e := by
  rintro m receiver args type rfl
  exact absurd rfl h

theorem gives_parts_of_traverseIdx {catalog : Catalog} {place : Nat → Expr → Position} {s s' : State}
    (h : (e.traverseIdx fun i c _ => resolve catalog (place i c) c).Gives s r s') :
    ∃ rs, (e.children.zipIdx.mapM fun c => resolve catalog (place c.2 c.1) c.1).Gives s rs s' ∧
      rs.length = e.children.length ∧ r = e.setChildren rs := by
  rw [traverseIdx_eq e fun i c => resolve catalog (place i c) c, gives_map] at h
  obtain ⟨rs, hrs, rfl⟩ := h
  have hlen := (hrs.forall₂ (fun _ _ => True) fun _ _ _ _ _ _ => trivial).length_eq
  rw [List.length_zipIdx] at hlen
  exact ⟨rs, hrs, hlen.symm, rfl⟩

/-- The parts of a node are resolved first, each in its position. Then the call of a function is
resolved, and any other node is put together again. -/
theorem resolve_cases {catalog : Catalog} {position : Position} {s s' : State}
    (h : (resolve catalog position e).Gives s r s') :
    ∃ rs t, ((parts catalog e).zipIdx.mapM fun c =>
        resolve catalog (partPosition catalog position e c.2 c.1) c.1).Gives s rs t ∧
      ((∃ m receiver args type set, e = .call m receiver args type ∧ catalog.find? m = some set ∧
          (resolveCall set position rs e).Gives t r s') ∨
        (s' = t ∧ Kept catalog e ∧ rs.length = e.children.length ∧ r = e.setChildren rs)) := by
  cases e with
  | call m receiver args type =>
    cases hfind : catalog.find? m with
    | some set =>
      rw [resolve_function hfind] at h
      obtain ⟨rs, t, hrs, h⟩ := gives_bind.mp h
      refine ⟨rs, t, ?_, .inl ⟨m, receiver, args, type, set, rfl, hfind, h⟩⟩
      rw [← List.zipIdx_map_fst 0 args, List.mapM_map] at hrs
      simp only [parts, partPosition, hfind, Option.isSome_some, if_true, Option.isNone_some,
        Bool.false_eq_true, false_and, if_false]
      exact hrs
    | none =>
      cases hop : (Operator.findFor? m args).isSome with
      | true =>
        rw [resolve_operator hfind hop] at h
        obtain ⟨rs, t, hrs, h⟩ := gives_bind.mp h
        obtain ⟨hchildren, rfl⟩ := gives_ofExcept.mp h
        obtain ⟨hlen, rfl⟩ := withChildren_eq_ok.mp hchildren
        -- There are as many results as arguments, so there can be no receiver beside them.
        have hargs := (hrs.forall₂ (fun _ _ => True) fun _ _ _ _ _ _ => trivial).length_eq
        rw [List.length_zipIdx] at hargs
        cases receiver with
        | some receiver =>
          simp only [children, Option.toList_some, List.singleton_append, List.length_cons] at hlen
          omega
        | none =>
          refine ⟨rs, s', ?_, .inr ⟨rfl, fun m' receiver' args' type' he => ?_, hlen, rfl⟩⟩
          · simpa [parts, partPosition, hfind, hop] using hrs
          · cases he
            exact ⟨hfind, fun _ => rfl⟩
      | false =>
        rw [resolve_call hfind hop, traverse_eq_traverseIdx] at h
        obtain ⟨rs, hrs, hlen, rfl⟩ := gives_parts_of_traverseIdx h
        refine ⟨rs, s', ?_, .inr ⟨rfl, fun m' receiver' args' type' he => ?_, hlen, rfl⟩⟩
        · simpa [parts, partPosition, hfind, hop, children] using hrs
        · cases he
          refine ⟨hfind, fun hop' => ?_⟩
          cases hop.symm.trans hop'
  | quote inner =>
    rw [resolve, gives_map] at h
    obtain ⟨inner', hinner, rfl⟩ := h
    exact ⟨[inner'], s', gives_mapM_singleton hinner,
      .inr ⟨rfl, kept_of_kindName (by simp [kindName]), rfl, rfl⟩⟩
  | lambda params body =>
    rw [resolve, gives_map] at h
    obtain ⟨body', hbody, rfl⟩ := h
    exact ⟨[body'], s', gives_mapM_singleton hbody,
      .inr ⟨rfl, kept_of_kindName (by simp [kindName]), rfl, rfl⟩⟩
  | _ =>
    rw [resolve_eq_traverseIdx (by simp [kindName]) (by simp [kindName]) (by simp [kindName])] at h
    obtain ⟨rs, hrs, hlen, rfl⟩ := gives_parts_of_traverseIdx h
    exact ⟨rs, s', hrs, .inr ⟨rfl, kept_of_kindName (by simp [kindName]), hlen, rfl⟩⟩

/-- The resolution of functions puts in calls of functions, and no other nodes. -/
theorem everywhere_resolve (hset : ∀ e cs, Q e → Q (e.setChildren cs))
    (hcall : ∀ f args, Q (.functionCall f args)) (htable : ∀ row f args, Q (.tableFunction row f args))
    {catalog : Catalog} {position : Position} {s s' : State} (he : e.Everywhere Q)
    (h : (resolve catalog position e).Gives s r s') : r.Everywhere Q := by
  induction e using childInduction generalizing position s s' r with
  | step e ih =>
    obtain ⟨rs, t, hrs, hnode⟩ := resolve_cases h
    have hmem : ∀ c ∈ (parts catalog e).zipIdx, c.1 ∈ e.children :=
      fun c hc => mem_children_of_mem_parts (List.fst_mem_of_mem_zipIdx hc)
    have hall := hrs.forall₂ (fun _ c => c.Everywhere Q) fun c hc _ _ _ h =>
      ih c.1 (hmem c hc) (he.child (hmem c hc)) h
    have hparts := forall_mem_of_forall₂ hall fun _ _ _ hc => hc
    rcases hnode with ⟨_, _, _, _, set, -, -, h⟩ | ⟨-, -, hlen, rfl⟩
    · rcases resolveCall_cases h with ⟨f, -, -, rfl, -⟩ | ⟨f, -, -, -, rfl, -⟩
      · exact everywhere_iff.mpr ⟨hcall f rs, hparts⟩
      · exact everywhere_iff.mpr ⟨htable _ f rs, hparts⟩
    · exact everywhere_setChildren hset he.root hlen hparts

end DatabaseFunction

variable {ctx : Context} {s s' : State}

/-- The passes that put in nodes of the host language only, and take nodes from the tree only. -/
def hostPasses : List Pass :=
  [promotion, markers, membership, groupJoin, nullGuard, keyComparison, memberPushdown]

/-- Such a pass keeps a property even if relational nodes need not have it. -/
theorem everywhere_run_host (hQ : HostPersistent Q) {p : Pass} (hp : p ∈ hostPasses)
    (he : e.Everywhere Q) (h : (p.run ctx e).Gives s r s') : r.Everywhere Q := by
  cases p with
  | promotion =>
    exact everywhere_bottomUp hQ.setChildren
      (fun _ _ he h => Promotion.everywhere_rule hQ he h) he (gives_ofExcept.mp h).1
  | markers =>
    rw [run] at h
    obtain ⟨t, ht, -⟩ := gives_zoom.mp h
    exact (Markers.everywhere_strip hQ.setChildren he ht).mono fun n hn => hn.1
  | membership =>
    exact everywhere_bottomUp hQ.setChildren
      (fun _ _ he h => Membership.everywhere_rule hQ he h) he (gives_ofExcept.mp h).1
  | groupJoin =>
    exact everywhere_bottomUp hQ.setChildren
      (fun _ _ he h => GroupJoin.everywhere_rule hQ he h) he (gives_ofExcept.mp h).1
  | nullGuard =>
    obtain ⟨rfl, -⟩ := gives_pure.mp h
    exact NullGuard.everywhere_remove hQ.setChildren he
  | keyComparison =>
    exact everywhere_bottomUp hQ.setChildren
      (fun _ _ he h => KeyComparison.everywhere_rule hQ he h) he (gives_ofExcept.mp h).1
  | memberPushdown =>
    exact everywhere_bottomUp hQ.setChildren
      (fun _ _ he h => MemberPushdown.everywhere_rule hQ he h) he (gives_ofExcept.mp h).1
  | inlining | navigation | databaseFunction => simp [hostPasses] at hp

/-- A pass other than inlining keeps persistent properties. -/
theorem everywhere_run (hQ : Persistent Q) {p : Pass} (hp : p ≠ .inlining) (he : e.Everywhere Q)
    (h : (p.run ctx e).Gives s r s') : r.Everywhere Q := by
  cases p with
  | inlining => exact absurd rfl hp
  | navigation =>
    obtain ⟨key, x, hx, -, -⟩ := Navigation.gives_run.mp h
    exact (Navigation.everywhere_expand hQ he
      (fun j hj => absurd hj List.not_mem_nil) hx).1
  | databaseFunction =>
    exact DatabaseFunction.everywhere_resolve hQ.setChildren (fun _ _ => hQ.ordinary _ rfl)
      (fun _ _ _ => hQ.ordinary _ rfl) he h
  | _ => exact everywhere_run_host hQ.host (by simp [hostPasses]) he h

theorem everywhere_runAll (hQ : Persistent Q) {ps : List Pass} (hps : .inlining ∉ ps)
    (he : e.Everywhere Q) (h : (runAll ctx ps e).Gives s r s') : r.Everywhere Q := by
  induction ps generalizing e s with
  | nil =>
    obtain ⟨rfl, -⟩ := gives_runAll_nil.mp h
    exact he
  | cons p ps ih =>
    obtain ⟨e₁, t, hp, h⟩ := gives_runAll_cons.mp h
    have hne : p ≠ .inlining := fun heq => hps (heq ▸ List.mem_cons_self)
    exact ih (fun hmem => hps (List.mem_cons_of_mem _ hmem)) (everywhere_run hQ hne he hp) h

end QueryLowering.Pass
