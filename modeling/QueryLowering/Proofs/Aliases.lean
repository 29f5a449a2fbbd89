import Mathlib
import QueryLowering.Proofs.Invocations
import QueryLowering.Proofs.Placeholders

/-!
Aliases of row sources. Joins are numbered while navigations are expanded, and table functions while
functions are resolved, both off one counter. So a lowered query has only aliases that were handed
out, no two of its table functions have the same, and none has that of a join.
-/

namespace QueryLowering

namespace Expr

/-- All nodes of a tree, those in bodies of delegates included. -/
def allNodes (e : Expr) : List Expr := e :: e.parts.attach.flatMap fun c => allNodes c.1
termination_by e
decreasing_by exact sizeOf_lt_of_mem_parts c.2

theorem allNodes_eq (e : Expr) : e.allNodes = e :: e.parts.flatMap allNodes := by
  rw [allNodes]
  simp

/-- No node is relational, not even in the body of a delegate. -/
def IsHost (e : Expr) : Prop := ∀ n ∈ e.allNodes, n.isRelational = false

variable {e : Expr}

theorem isHost_iff : e.IsHost ↔ e.isRelational = false ∧ ∀ c ∈ e.parts, c.IsHost := by
  unfold IsHost
  rw [allNodes_eq]
  simp only [List.mem_cons, List.mem_flatMap, forall_eq_or_imp]
  constructor
  · intro h
    exact ⟨h.1, fun c hc n hn => h.2 n ⟨c, hc, hn⟩⟩
  · intro h
    refine ⟨h.1, ?_⟩
    rintro n ⟨c, hc, hn⟩
    exact h.2 c hc n hn

/-- If the node is a delegate, then its body is of the host language. -/
def HostBody : Expr → Prop
  | const (.delegate _ (some body)) _ => body.IsHost
  | _ => True

/-- A node of the host language. -/
def HostNode (e : Expr) : Prop := e.isRelational = false ∧ e.HostBody

theorem isRelational_setChildren (e : Expr) (cs : List Expr) :
    (e.setChildren cs).isRelational = e.isRelational := by
  unfold setChildren
  split <;> rfl

theorem hostBody_setChildren (e : Expr) (cs : List Expr) (h : e.HostBody) :
    (e.setChildren cs).HostBody := by
  unfold setChildren
  split <;> exact h

theorem persistent_hostBody : Persistent HostBody where
  setChildren := hostBody_setChildren
  ordinary e h := by
    unfold HostBody
    split
    · cases h
    · trivial

theorem hostPersistent_hostNode : HostPersistent HostNode where
  setChildren e cs h := ⟨(isRelational_setChildren e cs).trans h.1, hostBody_setChildren e cs h.2⟩
  ordinary e h hhost := ⟨hhost, persistent_hostBody.ordinary e h⟩

theorem IsHost.everywhere (h : e.IsHost) : e.Everywhere HostNode := by
  induction e using childInduction with
  | step e ih =>
    obtain ⟨hroot, hparts⟩ := isHost_iff.mp h
    refine everywhere_iff.mpr ⟨⟨hroot, ?_⟩, fun c hc => ih c hc (hparts c ?_)⟩
    · unfold HostBody
      split
      · exact hparts _ (List.mem_singleton.mpr rfl)
      · trivial
    · exact mem_parts_of_mem_children hc

theorem delegateClosed_hostNode : DelegateClosed HostNode := by
  intro name body type h
  have hbody : body.IsHost := h.2
  exact hbody.everywhere

/-- The alias that a node has or refers to. -/
def alias? : Expr → Option Alias
  | baseTable row .. | derivedTable row _ | tableFunction row .. | pivotTable row ..
  | sourceRef row _ => some row
  | navigationJoin label .. => some label.row
  | _ => none

def tableFunctionAlias? : Expr → Option Alias
  | tableFunction row .. => some row
  | _ => none

def joinAlias? : Expr → Option Alias
  | navigationJoin label .. => some label.row
  | _ => none

/-- The aliases of all nodes. -/
def aliases (e : Expr) : List Alias := e.allNodes.filterMap alias?

/-- The aliases of the table functions, one for each of them. -/
def tableFunctionAliases (e : Expr) : List Alias := e.allNodes.filterMap tableFunctionAlias?

/-- The aliases of the joins along navigations, one for each of them. -/
def joinAliases (e : Expr) : List Alias := e.allNodes.filterMap joinAlias?

theorem alias?_setChildren (e : Expr) (cs : List Expr) :
    (e.setChildren cs).alias? = e.alias? := by
  unfold setChildren
  split <;> rfl

theorem tableFunctionAlias?_setChildren (e : Expr) (cs : List Expr) :
    (e.setChildren cs).tableFunctionAlias? = e.tableFunctionAlias? := by
  unfold setChildren
  split <;> rfl

theorem alias?_of_not_isRelational (h : e.isRelational = false) : e.alias? = none := by
  cases e with
  | baseTable | derivedTable | tableFunction | navigationJoin | pivotTable | sourceRef => cases h
  | _ => rfl

theorem alias?_of_tableFunctionAlias? {a : Alias} (h : e.tableFunctionAlias? = some a) :
    e.alias? = some a := by
  cases e with
  | tableFunction => exact h
  | _ => cases h

theorem of_joinAlias? {a : Alias} (h : e.joinAlias? = some a) :
    e.alias? = some a ∧ e.tableFunctionAlias? = none := by
  cases e with
  | navigationJoin => exact ⟨h, rfl⟩
  | _ => cases h

/-- What is read off the nodes of a tree, node by node. -/
theorem filterMap_nodes (f : Expr → Option Alias) (e : Expr) :
    e.nodes.filterMap f = (f e).toList ++ e.children.flatMap fun c => c.nodes.filterMap f := by
  simp only [List.filterMap_eq_flatMap_toList]
  rw [nodes_eq, List.flatMap_cons, List.flatMap_assoc]

/-- Bodies of delegates have no aliases if they are of the host language. -/
theorem filterMap_allNodes {f : Expr → Option Alias} (hf : ∀ n a, f n = some a → n.alias? = some a)
    (he : e.Everywhere HostBody) : e.allNodes.filterMap f = e.nodes.filterMap f := by
  have hhost : ∀ n : Expr, n.isRelational = false → f n = none := by
    intro n hn
    apply Option.eq_none_iff_forall_not_mem.mpr
    intro a ha
    have halias := hf n a ha
    rw [alias?_of_not_isRelational hn] at halias
    cases halias
  induction e using childInduction with
  | step e ih =>
    have hparts : e.parts.flatMap (fun c => c.allNodes.filterMap f) =
        e.children.flatMap fun c => c.nodes.filterMap f := by
      have hroot := he.root
      unfold HostBody at hroot
      split at hroot
      · rename_i name body type
        have hbody : body.allNodes.filterMap f = [] :=
          List.filterMap_eq_nil_iff.mpr fun n hn => hhost n (hroot n hn)
        simp [parts, children, hbody]
      · rename_i hne
        unfold parts
        split
        · exact absurd rfl (hne _ _ _)
        · exact List.flatMap_congr fun c hc => ih c hc (he.child hc)
    rw [filterMap_nodes, ← hparts]
    simp only [List.filterMap_eq_flatMap_toList]
    rw [allNodes_eq, List.flatMap_cons, List.flatMap_assoc]

end Expr

open QueryLowering.Expr StateStep

namespace Pass

variable {ctx : Context} {e r : Expr} {s s' : State}

/-- The passes that hand out no aliases. -/
def beforeNavigation : List Pass :=
  [promotion, markers, inlining, membership, groupJoin, nullGuard, keyComparison, memberPushdown]

theorem all_eq_beforeNavigation : all = beforeNavigation ++ [navigation, databaseFunction] := rfl

/-- Before navigations are expanded a tree of the host language stays one. -/
theorem hostNode_run {p : Pass} (hp : p ∈ beforeNavigation) (he : e.Everywhere HostNode)
    (h : (p.run ctx e).Gives s r s') : r.Everywhere HostNode := by
  cases p with
  | inlining =>
    exact (everywhere_run_inlining hostPersistent_hostNode.setChildren delegateClosed_hostNode he
      h).mono fun n hn => hn.1
  | navigation | databaseFunction => simp [beforeNavigation] at hp
  | _ => exact everywhere_run_host hostPersistent_hostNode (by simp [hostPasses]) he h

/-- Before navigations are expanded nothing is recorded but how the query is to be run. -/
theorem state_run {p : Pass} (hp : p ∈ beforeNavigation) (h : (p.run ctx e).Gives s r s') :
    s' = { s with metadata := s'.metadata } := by
  cases p with
  | markers =>
    rw [run] at h
    obtain ⟨t, -, rfl⟩ := gives_zoom.mp h
    rfl
  | nullGuard =>
    obtain ⟨-, rfl⟩ := gives_pure.mp h
    rfl
  | navigation | databaseFunction => simp [beforeNavigation] at hp
  | _ =>
    obtain ⟨-, rfl⟩ := gives_ofExcept.mp h
    rfl

theorem hostNode_runAll {ps : List Pass} (hps : ∀ p ∈ ps, p ∈ beforeNavigation)
    (he : e.Everywhere HostNode) (h : (runAll ctx ps e).Gives s r s') :
    r.Everywhere HostNode ∧ s' = { s with metadata := s'.metadata } := by
  induction ps generalizing e s with
  | nil =>
    obtain ⟨rfl, rfl⟩ := gives_runAll_nil.mp h
    exact ⟨he, rfl⟩
  | cons p ps ih =>
    obtain ⟨e₁, t, hp, h⟩ := gives_runAll_cons.mp h
    have hmem := hps p List.mem_cons_self
    obtain ⟨hr, hs'⟩ := ih (fun q hq => hps q (List.mem_cons_of_mem _ hq)) (hostNode_run hmem he hp) h
    have ht := state_run hmem hp
    rw [ht] at hs'
    exact ⟨hr, hs'⟩

namespace Navigation

/-- The node is no table function, and any alias that it has is below a number. -/
def Issued (n : Nat) (e : Expr) : Prop :=
  e.tableFunctionAlias? = none ∧ ∀ a ∈ e.alias?, a.number < n

theorem Issued.mono {n n' : Nat} (h : Issued n e) (hle : n ≤ n') : Issued n' e :=
  ⟨h.1, fun a ha => Nat.lt_of_lt_of_le (h.2 a ha) hle⟩

theorem issued_of_not_isRelational {n : Nat} (h : e.isRelational = false) : Issued n e := by
  have hnone := alias?_of_not_isRelational h
  constructor
  · apply Option.eq_none_iff_forall_not_mem.mpr
    intro a ha
    rw [alias?_of_tableFunctionAlias? ha] at hnone
    cases hnone
  · intro a ha
    rw [hnone] at ha
    cases ha

theorem hostPersistent_issued (n : Nat) : HostPersistent (Issued n) where
  setChildren e cs h := by
    unfold Issued
    rw [alias?_setChildren, tableFunctionAlias?_setChildren]
    exact h
  ordinary e _ hhost := issued_of_not_isRelational hhost

/-- The joins are numbered from zero in the order in which they were recorded, and what waits to be
attached has only aliases that were handed out. -/
structure Numbered (x : Expansion) : Prop where
  joins : (x.state.joins.map fun j => j.2.row.number) = List.range x.state.nextAlias
  labels : ∀ j ∈ x.pending, j.label.row.number < x.state.nextAlias
  pending : PendingEverywhere (Issued x.state.nextAlias) x

theorem issued_sourceRef {a : Alias} {entity : String} {n : Nat} (h : a.number < n) :
    Issued n (.sourceRef a entity) := by
  refine ⟨rfl, fun b hb => ?_⟩
  cases hb
  exact h

theorem Numbered.lt_of_findJoin? {x : Expansion} (hx : Numbered x) {key : SourceKey} {name : String}
    {j : Join} (h : x.state.findJoin? key name = some j) : j.row.number < x.state.nextAlias := by
  have hmem : ((key, name), j) ∈ x.state.joins := mem_of_lookup h
  have hnumber := List.mem_map_of_mem (f := fun j => j.2.row.number) hmem
  rw [hx.joins] at hnumber
  exact List.mem_range.mp hnumber

/-- A row that a scope has comes from a root. Any other row is that of a join. -/
theorem rowKey?_cases {Γ : Scope} {row : Expr} {key : SourceKey}
    (hΓ : ScopeKeys (fun key => ∃ i, key = .root i) Γ) (h : rowKey? Γ row = some key) :
    (∃ i, key = .root i) ∨ ∃ a entity, row = .sourceRef a entity ∧ key = .join a := by
  unfold rowKey? at h
  split at h
  · rename_i p
    unfold Scope.source? at h
    split at h
    · rename_i q source hfind
      split at h
      · exact .inl (hΓ _ (List.mem_of_find?_eq_some hfind) key h)
      · cases h
    · cases h
  · rename_i a entity
    cases h
    exact .inr ⟨a, entity, rfl, rfl⟩
  · cases h

/-- A new join takes the next number. -/
theorem numbered_addJoin {x : Expansion} {key : SourceKey} {n : QueryLowering.Navigation}
    {parts : JoinParts} (hx : Numbered x) (hnone : x.state.findJoin? key n.name = none)
    (hkeys : parts.outerKey.Everywhere (Issued x.state.nextAlias) ∧
      parts.innerKey.Everywhere (Issued x.state.nextAlias)) :
    Numbered (addJoin key n parts x).2 := by
  have hstate := state_addJoin parts hnone
  have hnext : (addJoin key n parts x).2.state.nextAlias = x.state.nextAlias + 1 := by rw [hstate]
  refine ⟨?_, ?_, ?_⟩
  · rw [hstate]
    simp only [List.map_append, List.map_cons, List.map_nil, hx.joins, List.range_succ]
  · intro j hj
    rw [hnext]
    rcases pending_addJoin hj with hj | rfl
    · exact Nat.lt_succ_of_lt (hx.labels j hj)
    · exact Nat.lt_succ_self _
  · intro j hj
    have hmono : ∀ n, Issued x.state.nextAlias n → Issued (x.state.nextAlias + 1) n :=
      fun n hn => hn.mono (Nat.le_succ _)
    rw [hnext]
    rcases pending_addJoin hj with hj | rfl
    · obtain ⟨hinner, houterKey, hinnerKey⟩ := hx.pending j hj
      exact ⟨hinner.mono hmono, houterKey.mono hmono, hinnerKey.mono hmono⟩
    · refine ⟨everywhere_of_leaf rfl ⟨rfl, fun a ha => ?_⟩, hkeys.1.mono hmono,
        hkeys.2.mono hmono⟩
      cases ha
      exact Nat.lt_succ_self _

theorem numbered_expandMember {model : Model} {Γ : Scope} {row : Expr} {name : String}
    {type : DataType} {x x' : Expansion} (hΓ : ScopeKeys (fun key => ∃ i, key = .root i) Γ)
    (hrow : row.Everywhere (Issued x.state.nextAlias)) (hx : Numbered x)
    (h : (expandMember model Γ row name type).Gives x r x') :
    r.Everywhere (Issued x'.state.nextAlias) ∧ Numbered x' := by
  have hissued := hostPersistent_issued x.state.nextAlias
  rcases expandMember_cases h with ⟨rfl, rfl⟩ | ⟨key, declaring, n, hkey, h⟩ |
    ⟨declaring, n, hcollection, rfl⟩
  · exact ⟨hissued.member hrow name type, hx⟩
  · rcases expandReference_cases h with ⟨j, hj, rfl, rfl⟩ | ⟨parts, hnone, hparts, rfl, rfl⟩
    · exact ⟨everywhere_of_leaf rfl (issued_sourceRef (hx.lt_of_findJoin? hj)), hx⟩
    · -- The row that the navigation starts from may be one of an earlier join.
      have hstart : ∀ a, key = .join a → Issued x.state.nextAlias (.sourceRef a declaring.name) := by
        intro a ha
        rcases rowKey?_cases hΓ hkey with ⟨i, hi⟩ | ⟨b, entity, rfl, hb⟩
        · rw [hi] at ha
          cases ha
        · rw [hb] at ha
          cases ha
          exact issued_sourceRef (hrow.root.2 a rfl)
      have hnumbered := numbered_addJoin hx hnone (everywhere_joinParts hissued hstart hparts)
      refine ⟨everywhere_of_leaf rfl (issued_sourceRef ?_), hnumbered⟩
      rw [state_addJoin parts hnone]
      exact Nat.lt_succ_self _
  · exact ⟨everywhere_expandCollection hissued hrow hcollection, hx⟩

/-- In the state of an expansion joins are numbered, and the trees built so far have only aliases that
were handed out. -/
theorem invariant_numbered (model : Model) :
    Invariant model HostNode Numbered (fun x e => e.Everywhere (Issued x.state.nextAlias))
      (fun key => ∃ i, key = .root i) where
  mono hgrows he := he.mono fun n hn => hn.mono hgrows.aliases
  node he hlen hcs := everywhere_setChildren (hostPersistent_issued _).setChildren
    (issued_of_not_isRelational he.1) hlen hcs
  root i := ⟨i, rfl⟩
  addRoot _ hx := ⟨hx.joins, hx.labels, hx.pending⟩
  member hΓ hrow hx h := numbered_expandMember hΓ hrow hx h
  attach {x x' key e r} he hx h := by
    have hlabel : ∀ j ∈ x.pending, ∀ outer,
        Issued x.state.nextAlias (.navigationJoin j.label outer j.inner j.outerKey j.innerKey) := by
      intro j hj outer
      refine ⟨rfl, fun a ha => ?_⟩
      cases ha
      exact hx.labels j hj
    obtain ⟨hr, hstate, hpending⟩ := everywhere_attach he hlabel hx.pending h
    refine ⟨?_, ?_, ?_, ?_⟩
    · rw [hstate]
      exact hr
    · rw [hstate]
      exact hx.joins
    · rw [hstate]
      exact fun j hj => hx.labels j (hpending j hj)
    · rw [hstate]
      exact fun j hj => hx.pending j (hpending j hj)

/-- The expansion of a query numbers its joins from zero, and leaves no other aliases. -/
theorem numbered_run (he : e.Everywhere HostNode) (hjoins : s.joins = []) (hnext : s.nextAlias = 0)
    (h : (navigation.run ctx e).Gives s r s') :
    r.Everywhere (Issued s'.nextAlias) ∧ s'.nextAlias = s'.joinCount := by
  obtain ⟨key, x, hx, -, rfl⟩ := gives_run.mp h
  have hstart : Numbered { state := s } := by
    refine ⟨?_, List.forall_mem_nil _, List.forall_mem_nil _⟩
    rw [hjoins, hnext]
    rfl
  obtain ⟨hr, -, hnumbered, -⟩ := (invariant_numbered ctx.model).expand he _ _ _ _ _
    (fun _ hb => absurd hb List.not_mem_nil) Invariant.unbound hstart hx
  refine ⟨hr, ?_⟩
  have hlength := congrArg List.length hnumbered.joins
  rw [List.length_map, List.length_range] at hlength
  exact hlength.symm

end Navigation

namespace DatabaseFunction

/-- Between two states exactly the given aliases have been handed out, in some order, and no join has
been recorded. -/
structure HandsOut (s : State) (as : List Alias) (s' : State) : Prop where
  joins : s'.joins = s.joins
  nextAlias : s'.nextAlias = s.nextAlias + as.length
  numbers : (as.map Alias.number).Perm (List.range' s.nextAlias as.length)

namespace HandsOut

variable {as bs : List Alias} {t : State}

theorem none (s : State) : HandsOut s [] s := ⟨rfl, rfl, .nil⟩

theorem takeAlias (s : State) : HandsOut s [⟨s.nextAlias⟩] s.takeAlias.2 := ⟨rfl, rfl, .refl _⟩

theorem append (hs : HandsOut s as t) (ht : HandsOut t bs s') : HandsOut s (as ++ bs) s' := by
  refine ⟨ht.joins.trans hs.joins, ?_, ?_⟩
  · calc
      s'.nextAlias = t.nextAlias + bs.length := ht.nextAlias
      _ = s.nextAlias + as.length + bs.length := by rw [hs.nextAlias]
      _ = s.nextAlias + (as ++ bs).length := by rw [List.length_append, Nat.add_assoc]
  · -- The second range begins where the first one ends.
    have hrange : List.range' s.nextAlias as.length ++ List.range' t.nextAlias bs.length =
        List.range' s.nextAlias (as.length + bs.length) := by
      rw [hs.nextAlias]
      exact List.range'_append_1
    rw [List.map_append, List.length_append, ← hrange]
    exact hs.numbers.append ht.numbers

theorem perm (h : HandsOut s as s') (hp : as.Perm bs) : HandsOut s bs s' := by
  refine ⟨h.joins, ?_, ?_⟩
  · rw [h.nextAlias, hp.length_eq]
  · rw [← hp.length_eq]
    exact (hp.map _).symm.trans h.numbers

theorem nodup (h : HandsOut s as s') : as.Nodup :=
  List.Nodup.of_map _ (h.numbers.nodup_iff.mpr List.nodup_range')

theorem number_bounds (h : HandsOut s as s') {a : Alias} (ha : a ∈ as) :
    s.nextAlias ≤ a.number ∧ a.number < s'.nextAlias := by
  have hmem := h.numbers.mem_iff.mp (List.mem_map_of_mem ha)
  rw [h.nextAlias]
  exact List.mem_range'_1.mp hmem

/-- A traversal hands out what its steps hand out, one after the other. -/
theorem mapM {α : Type} {f : α → StateStep State Expr} {g : Expr → List Alias} {xs : List α}
    {ys : List Expr} (hstep : ∀ x ∈ xs, ∀ t y t', (f x).Gives t y t' → HandsOut t (g y) t')
    (h : (xs.mapM f).Gives s ys s') : HandsOut s (ys.flatMap g) s' := by
  induction xs generalizing ys s with
  | nil =>
    obtain ⟨rfl, rfl⟩ := gives_mapM_nil.mp h
    exact none s'
  | cons x xs ih =>
    obtain ⟨y, t, ys', hx, hxs, rfl⟩ := gives_mapM_cons.mp h
    rw [List.flatMap_cons]
    exact (hstep x List.mem_cons_self s y t hx).append
      (ih (fun x hx => hstep x (List.mem_cons_of_mem _ hx)) hxs)

end HandsOut

/-- In a tree without table functions, resolution hands out an alias to each that it puts in. A
function takes its alias after its arguments have taken theirs. -/
theorem handsOut_resolve {catalog : Catalog} {position : Position}
    (he : e.Everywhere fun n => n.tableFunctionAlias? = none)
    (h : (resolve catalog position e).Gives s r s') :
    HandsOut s (r.nodes.filterMap tableFunctionAlias?) s' := by
  induction e using childInduction generalizing position s s' r with
  | step e ih =>
    obtain ⟨rs, t, hrs, hnode⟩ := resolve_cases h
    have hmem : ∀ c ∈ (parts catalog e).zipIdx, c.1 ∈ e.children :=
      fun c hc => mem_children_of_mem_parts (List.fst_mem_of_mem_zipIdx hc)
    have hall : HandsOut s (rs.flatMap fun a => a.nodes.filterMap tableFunctionAlias?) t :=
      HandsOut.mapM (fun c hc _ _ _ h => ih c.1 (hmem c hc) (he.child (hmem c hc)) h) hrs
    rcases hnode with ⟨_, _, _, _, set, -, -, h⟩ | ⟨rfl, -, hlen, rfl⟩
    · rcases resolveCall_cases h with ⟨f, -, -, rfl, rfl⟩ | ⟨f, -, -, -, rfl, rfl⟩
      · rw [filterMap_nodes]
        exact hall
      · -- In the tree the function stands before its arguments.
        rw [filterMap_nodes]
        exact (hall.append (.takeAlias t)).perm List.perm_append_comm
    · rw [filterMap_nodes, tableFunctionAlias?_setChildren, he.root, children_setChildren hlen]
      exact hall

/-- Resolution leaves the other aliases as they are. -/
theorem issued_resolve {catalog : Catalog} {position : Position} {n : Nat}
    (he : e.Everywhere (Navigation.Issued n)) (h : (resolve catalog position e).Gives s r s') :
    r.Everywhere fun m => m.tableFunctionAlias? = none → ∀ a ∈ m.alias?, a.number < n := by
  refine everywhere_resolve ?_ ?_ ?_ (he.mono fun m hm _ => hm.2) h
  · intro m cs hm
    rw [alias?_setChildren, tableFunctionAlias?_setChildren]
    exact hm
  · intro f args _ a ha
    cases ha
  · intro row f args hnone
    cases hnone

end DatabaseFunction

end Pass

/-- The state in which the lowering of a query ends. -/
def finalState (ctx : Context) (e : Expr) : State :=
  ((Pass.runAll ctx Pass.all e).run.run .fresh).2

/-- The last two passes of a successful lowering: navigations are expanded in a tree of the host
language and a state without joins, then functions are resolved. -/
theorem exists_navigation_of_lower {ctx : Context} {e : Expr} {l : Lowered} (he : e.IsHost)
    (h : lower ctx e = .ok l) :
    ∃ e₁ e₂ s₁ s₂, e₁.Everywhere HostNode ∧ s₁.joins = [] ∧ s₁.nextAlias = 0 ∧
      (Pass.navigation.run ctx e₁).Gives s₁ e₂ s₂ ∧
      (Pass.databaseFunction.run ctx e₂).Gives s₂ l.expr (finalState ctx e) := by
  obtain ⟨s, hrun, -⟩ := lower_eq_ok.mp h
  have hfinal : finalState ctx e = s := congrArg Prod.snd hrun
  rw [hfinal]
  rw [Pass.all_eq_beforeNavigation] at hrun
  obtain ⟨e₁, s₁, hbefore, hrun⟩ := Pass.gives_runAll_append.mp hrun
  obtain ⟨e₂, s₂, hnavigation, hrun⟩ := Pass.gives_runAll_cons.mp hrun
  obtain ⟨e₃, s₃, hfunctions, hrun⟩ := Pass.gives_runAll_cons.mp hrun
  obtain ⟨rfl, rfl⟩ := Pass.gives_runAll_nil.mp hrun
  obtain ⟨he₁, hs₁⟩ := Pass.hostNode_runAll (fun _ hp => hp) he.everywhere hbefore
  refine ⟨e₁, e₂, s₁, s₂, he₁, ?_, ?_, hnavigation, hfunctions⟩
  · rw [hs₁]
    rfl
  · rw [hs₁]
    rfl

/-- If no node of a query is relational, then the table functions of the lowered query have distinct
aliases, which are no aliases of its joins, and every alias in it is one of those that were handed
out: one to each recorded join, and one to each table function. -/
theorem aliases_of_lower {ctx : Context} {e : Expr} {l : Lowered} (he : e.IsHost)
    (h : lower ctx e = .ok l) :
    l.expr.tableFunctionAliases.Nodup ∧
      (∀ a ∈ l.expr.tableFunctionAliases, a ∉ l.expr.joinAliases) ∧
      (∀ a ∈ l.expr.aliases, a.number < (finalState ctx e).nextAlias) ∧
      (finalState ctx e).nextAlias =
        (finalState ctx e).joinCount + l.expr.tableFunctionAliases.length := by
  obtain ⟨e₁, e₂, s₁, s₂, he₁, hjoins, hnext, hnavigation, hfunctions⟩ :=
    exists_navigation_of_lower he h
  obtain ⟨hissued, hcount⟩ := Pass.Navigation.numbered_run he₁ hjoins hnext hnavigation
  have hout := Pass.DatabaseFunction.handsOut_resolve (hissued.mono fun n hn => hn.1) hfunctions
  have hothers := Pass.DatabaseFunction.issued_resolve hissued hfunctions
  -- Delegates that are left have bodies without aliases, so only the nodes of the tree count.
  have hbody : l.expr.Everywhere HostBody :=
    Pass.everywhere_run persistent_hostBody (by decide) (Pass.everywhere_run persistent_hostBody
      (by decide) (he₁.mono fun n hn => hn.2) hnavigation) hfunctions
  have hnodes : l.expr.tableFunctionAliases = l.expr.nodes.filterMap tableFunctionAlias? :=
    filterMap_allNodes (fun _ _ => alias?_of_tableFunctionAlias?) hbody
  rw [hnodes]
  refine ⟨hout.nodup, fun a ha hjoin => ?_, fun a ha => ?_, ?_⟩
  · rw [joinAliases, filterMap_allNodes (fun _ _ hn => (of_joinAlias? hn).1) hbody] at hjoin
    obtain ⟨n, hn, hna⟩ := List.mem_filterMap.mp hjoin
    have hlt := hothers n hn (of_joinAlias? hna).2 a (of_joinAlias? hna).1
    have hle := (hout.number_bounds ha).1
    omega
  · rw [aliases, filterMap_allNodes (fun _ _ hn => hn) hbody] at ha
    obtain ⟨n, hn, hna⟩ := List.mem_filterMap.mp ha
    cases hf : n.tableFunctionAlias? with
    | some b =>
      rw [alias?_of_tableFunctionAlias? hf] at hna
      cases hna
      exact (hout.number_bounds (List.mem_filterMap.mpr ⟨n, hn, hf⟩)).2
    | none =>
      have hlt := hothers n hn hf a hna
      have hle := hout.nextAlias
      omega
  · calc
      (finalState ctx e).nextAlias = s₂.nextAlias + _ := hout.nextAlias
      _ = s₂.joinCount + _ := by rw [hcount]
      _ = (finalState ctx e).joinCount + _ := by rw [State.joinCount, State.joinCount, hout.joins]

/-- A call of the method that stands for a table function of the sample. -/
def recentOrders (days : Expr) : Expr :=
  .call ⟨Sample.functionOwner, "RecentOrders", []⟩ none [days] (.queryable (.entity "Order"))

/-- The customers of recent orders. The argument of the function calls it once more. -/
def recentCustomers : Expr :=
  let o : Param := ⟨"o", .entity "Order"⟩
  .call ⟨"Queryable", "Select", []⟩ none
    [recentOrders (.call ⟨"Queryable", "Count", []⟩ none [recentOrders (.literal (.int32 7))] .int32),
     .quote (.lambda [o] (.member (.param o) "Customer" (.entity "Customer")))]
    (.queryable (.entity "Customer"))

/-- The customers of orders, joined under the first alias. -/
def joinedCustomers (orders : Expr) : Expr :=
  let r : Param := ⟨"r", .entity "Order"⟩
  let i : Param := ⟨"i", .entity "Customer"⟩
  .call ⟨"Queryable", "Select", []⟩ none
    [.navigationJoin ⟨⟨0⟩, "Customer", .inner⟩ orders (.baseTable ⟨0⟩ none "customers" "Customer")
      (.lambda [r] (.member (.param r) "CustomerId" .int32))
      (.lambda [i] (.member (.param i) "Id" .int32)),
     .quote (.lambda [⟨"o", .entity "Order"⟩] (.sourceRef ⟨0⟩ "Customer"))]
    (.queryable (.entity "Customer"))

/-- What the two calls of the function become: the inner one takes its alias before the outer one. -/
def loweredRecentOrders : Expr :=
  let recent : DbFunction :=
    ⟨"recent_orders", some "sales", .tableValued, ⟨[.int32], none, .queryable (.entity "Order")⟩⟩
  .tableFunction ⟨2⟩ recent [.call ⟨"Queryable", "Count", []⟩ none
    [.tableFunction ⟨1⟩ recent [.literal (.int32 7)]] .int32]

/-- The state after one join to customers. -/
def oneJoin : State where
  joins := [((.root 1, "Customer"), ⟨⟨0⟩, "Customer", .root 1, .inner⟩)]
  roots := [.entity "Order", .entity "Order", .entity "Customer"]
  nextAlias := 1

theorem expand_recentOrders (Γ : Pass.Navigation.Scope) (bound : Nat → Option SourceKey)
    (days : Expr) :
    Pass.Navigation.expand Sample.model Γ bound (recentOrders days) = (do
      let p ← Pass.Navigation.expand Sample.model Γ (fun _ => none) days
      return (recentOrders p.1, none)) := by
  have hnamed : ∀ op ∈ Operator.all, op.named Sample.functionOwner "RecentOrders" = false := by
    decide
  have hop : Operator.findFor? ⟨Sample.functionOwner, "RecentOrders", []⟩ [days] = none := by
    refine List.find?_eq_none.mpr fun op hop => ?_
    simp [hnamed op hop]
  unfold recentOrders
  rw [Pass.Navigation.expand_call (by rw [hop]; rfl), traverse_eq]
  simp [children, setChildren]

theorem navigation_recentCustomers :
    (Pass.navigation.run ⟨Sample.model, Sample.catalog⟩ recentCustomers).Gives .fresh
      (joinedCustomers (recentOrders (.call ⟨"Queryable", "Count", []⟩ none
        [recentOrders (.literal (.int32 7))] .int32))) oneJoin := by
  refine Pass.Navigation.gives_run.mpr ⟨some (.root 2), { state := oneJoin }, ?_, rfl, rfl⟩
  unfold Gives recentCustomers
  -- Calls of the function are no operator calls, so each is opened by its own equation.
  rw [Pass.Navigation.expand_operator (by cbv)]
  simp only [List.mapM_cons, List.mapM_nil, Pass.Navigation.expandSource, expand_recentOrders]
  rw [Pass.Navigation.expand_operator (by cbv)]
  simp only [List.mapM_cons, List.mapM_nil, Pass.Navigation.expandSource, expand_recentOrders]
  cbv

theorem aliases_recentCustomers :
    recentCustomers.IsHost ∧
      lower ⟨Sample.model, Sample.catalog⟩ recentCustomers =
        .ok ⟨joinedCustomers loweredRecentOrders, {}⟩ ∧
      (joinedCustomers loweredRecentOrders).tableFunctionAliases.Nodup ∧
      (∀ a ∈ (joinedCustomers loweredRecentOrders).tableFunctionAliases,
        a ∉ (joinedCustomers loweredRecentOrders).joinAliases) ∧
      (∀ a ∈ (joinedCustomers loweredRecentOrders).aliases,
        a.number < (finalState ⟨Sample.model, Sample.catalog⟩ recentCustomers).nextAlias) ∧
      (finalState ⟨Sample.model, Sample.catalog⟩ recentCustomers).nextAlias =
        (finalState ⟨Sample.model, Sample.catalog⟩ recentCustomers).joinCount +
          (joinedCustomers loweredRecentOrders).tableFunctionAliases.length := by
  have hhost : recentCustomers.IsHost := by
    have hnodes : (recentCustomers.allNodes.all fun n => !n.isRelational) = true := by cbv
    intro n hn
    simpa using List.all_eq_true.mp hnodes n hn
  have hbefore : (Pass.runAll ⟨Sample.model, Sample.catalog⟩ Pass.beforeNavigation
      recentCustomers).Gives .fresh recentCustomers .fresh := by
    unfold Gives
    cbv
  have hfunctions : (Pass.databaseFunction.run ⟨Sample.model, Sample.catalog⟩
      (joinedCustomers (recentOrders (.call ⟨"Queryable", "Count", []⟩ none
        [recentOrders (.literal (.int32 7))] .int32)))).Gives oneJoin
      (joinedCustomers loweredRecentOrders) { oneJoin with nextAlias := 3 } := by
    unfold Gives
    cbv
  have hlower : lower ⟨Sample.model, Sample.catalog⟩ recentCustomers =
      .ok ⟨joinedCustomers loweredRecentOrders, {}⟩ := by
    refine lower_eq_ok.mpr ⟨{ oneJoin with nextAlias := 3 }, ?_, rfl⟩
    rw [Pass.all_eq_beforeNavigation, Pass.gives_runAll_append]
    refine ⟨_, _, hbefore, Pass.gives_runAll_cons.mpr ⟨_, _, navigation_recentCustomers, ?_⟩⟩
    exact Pass.gives_runAll_cons.mpr ⟨_, _, hfunctions, Pass.gives_runAll_nil.mpr ⟨rfl, rfl⟩⟩
  exact ⟨hhost, hlower, aliases_of_lower hhost hlower⟩

end QueryLowering
