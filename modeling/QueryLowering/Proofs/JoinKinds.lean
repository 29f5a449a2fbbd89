import QueryLowering.Proofs.DefaultRows
import QueryLowering.Proofs.JoinTable

/-!
Kinds of the joins that stand in an expanded query. Each of them is recorded in the join table under its
alias, navigation and kind, so its kind is settled by the path of navigations that leads to it from a
root, and by nothing else: a default row that the source of a join supplies does not make it a join
from the outside.
-/

namespace QueryLowering

namespace Expr

/-- The label of a join along a navigation. -/
def joinLabel? : Expr → Option JoinLabel
  | navigationJoin label .. => some label
  | _ => none

theorem joinLabel?_setChildren (e : Expr) (cs : List Expr) :
    (e.setChildren cs).joinLabel? = e.joinLabel? := by
  unfold setChildren
  split <;> rfl

theorem joinLabel?_of_not_isRelational {e : Expr} (h : e.isRelational = false) :
    e.joinLabel? = none := by
  cases e with
  | navigationJoin => cases h
  | _ => rfl

/-- On the row spine there is a call that supplies a default row, so there may be no row. -/
def OverDefault (e : Expr) : Prop := ∃ d, OnSpine d e ∧ d.SuppliesDefault

end Expr

namespace Pass.Navigation

open QueryLowering.Expr StateStep

variable {ctx : Context} {model : Model} {s s' : State} {x x' : Expansion} {e n r : Expr}

/-- A join with what the label tells is recorded. -/
def Listed (s : State) (label : JoinLabel) : Prop :=
  ∃ e ∈ s.joins, e.2.row = label.row ∧ e.1.2 = label.navigation ∧ e.2.kind = label.kind

/-- If the node is a join, it is recorded. -/
def ListedNode (s : State) (n : Expr) : Prop := ∀ label ∈ n.joinLabel?, Listed s label

theorem Listed.mono {label : JoinLabel} (h : Listed s label) (hgrows : Grows s s') :
    Listed s' label := by
  obtain ⟨e, he, hlabel⟩ := h
  exact ⟨e, hgrows.joins.subset he, hlabel⟩

theorem ListedNode.mono (h : ListedNode s n) (hgrows : Grows s s') : ListedNode s' n :=
  fun label hlabel => (h label hlabel).mono hgrows

theorem listedNode_of_joinLabel? (h : n.joinLabel? = none) : ListedNode s n := by
  intro label hlabel
  rw [h] at hlabel
  cases hlabel

theorem hostPersistent_listedNode (s : State) : HostPersistent (ListedNode s) where
  setChildren e cs h := by
    unfold ListedNode
    rw [joinLabel?_setChildren]
    exact h
  ordinary e _ hhost := listedNode_of_joinLabel? (joinLabel?_of_not_isRelational hhost)

/-- What waits to be attached is recorded, and so are the joins in it. -/
structure WaitingListed (x : Expansion) : Prop where
  labels : ∀ j ∈ x.pending, Listed x.state j.label
  pending : PendingEverywhere (ListedNode x.state) x

theorem PendingJoin.Everywhere.mono {P Q : Expr → Prop} {j : PendingJoin} (h : j.Everywhere P)
    (hPQ : ∀ n, P n → Q n) : j.Everywhere Q :=
  ⟨h.1.mono hPQ, h.2.1.mono hPQ, h.2.2.mono hPQ⟩

theorem WaitingListed.mono (hx : WaitingListed x) (hgrows : Grows x.state s) :
    WaitingListed { x with state := s } :=
  ⟨fun j hj => (hx.labels j hj).mono hgrows,
    fun j hj => (hx.pending j hj).mono fun _ hn => hn.mono hgrows⟩

/-- A new join is recorded with what its label tells. -/
theorem WaitingListed.addJoin {key : SourceKey} {n : QueryLowering.Navigation} {parts : JoinParts}
    (hx : WaitingListed x) (hnone : x.state.findJoin? key n.name = none)
    (hkeys : parts.outerKey.Everywhere (ListedNode x.state) ∧
      parts.innerKey.Everywhere (ListedNode x.state)) :
    WaitingListed (addJoin key n parts x).2 := by
  have hgrows := grows_addJoin parts hnone
  have hold := hx.mono hgrows
  refine ⟨fun j hj => ?_, fun j hj => ?_⟩
  · rcases pending_addJoin hj with hj | rfl
    · exact hold.labels j hj
    · refine ⟨((key, n.name), ⟨⟨x.state.nextAlias⟩, parts.target.name, parts.anchor,
        joinKind x.state key n⟩), ?_, rfl, rfl, rfl⟩
      rw [joins_addJoin parts hnone]
      exact List.mem_append_right _ List.mem_cons_self
  · rcases pending_addJoin hj with hj | rfl
    · exact hold.pending j hj
    · exact ⟨everywhere_of_leaf rfl nofun, hkeys.1.mono fun _ hn => hn.mono hgrows,
        hkeys.2.mono fun _ hn => hn.mono hgrows⟩

theorem listed_expandMember {Γ : Scope} {row : Expr} {name : String} {type : DataType}
    (hrow : row.Everywhere (ListedNode x.state)) (hx : WaitingListed x)
    (h : (expandMember model Γ row name type).Gives x r x') :
    r.Everywhere (ListedNode x'.state) ∧ WaitingListed x' := by
  have hlisted := hostPersistent_listedNode x.state
  rcases expandMember_cases h with ⟨rfl, rfl⟩ | ⟨key, declaring, n, -, h⟩ |
    ⟨declaring, n, hcollection, rfl⟩
  · exact ⟨hlisted.member hrow name type, hx⟩
  · rcases expandReference_cases h with ⟨j, -, rfl, rfl⟩ | ⟨parts, hnone, hparts, rfl, rfl⟩
    · exact ⟨everywhere_of_leaf rfl nofun, hx⟩
    · exact ⟨everywhere_of_leaf rfl nofun,
        hx.addJoin hnone (everywhere_joinParts hlisted (fun _ _ => nofun) hparts)⟩
  · exact ⟨everywhere_expandCollection hlisted hrow hcollection, hx⟩

/-- In the state of an expansion all joins are recorded that stand in the trees built so far. -/
theorem invariant_listed (model : Model) :
    Invariant model (fun n => n.joinLabel? = none) WaitingListed
      (fun x e => e.Everywhere (ListedNode x.state)) (fun _ => True) where
  mono hgrows he := he.mono fun n hn => hn.mono hgrows
  node he hlen hcs := everywhere_setChildren (hostPersistent_listedNode _).setChildren
    (listedNode_of_joinLabel? he) hlen hcs
  root _ := trivial
  addRoot element hx := hx.mono (.addRoot _ element)
  member _ hrow hx h := listed_expandMember hrow hx h
  attach {x x' key e r} he hx h := by
    -- The joins put around the tree have waited, and what has waited is recorded.
    have hlabel : ∀ j ∈ x.pending, ∀ outer,
        ListedNode x.state (.navigationJoin j.label outer j.inner j.outerKey j.innerKey) := by
      intro j hj outer label hlabel
      cases hlabel
      exact hx.labels j hj
    obtain ⟨hr, hstate, hpending⟩ := everywhere_attach he hlabel hx.pending h
    refine ⟨?_, ?_, ?_⟩
    · rw [hstate]
      exact hr
    · rw [hstate]
      exact fun j hj => hx.labels j (hpending j hj)
    · rw [hstate]
      exact fun j hj => hx.pending j (hpending j hj)

/-- Every join that stands in an expanded query is recorded. -/
theorem listed_run (he : e.Everywhere fun n => n.joinLabel? = none)
    (h : (navigation.run ctx e).Gives s r s') : r.Everywhere (ListedNode s') := by
  obtain ⟨key, x, hx, -, rfl⟩ := gives_run.mp h
  have hstart : WaitingListed { state := s } := ⟨List.forall_mem_nil _, List.forall_mem_nil _⟩
  exact ((invariant_listed ctx.model).expand he _ _ _ _ _ (fun _ _ _ _ => trivial)
    (fun _ _ _ => trivial) hstart hx).1

/-- While the query is expanded, joins along the path are made that lead from a root to the row with the
alias. -/
def PathTo (model : Model) (e : Expr) (s : State) (a : Alias)
    (path : List QueryLowering.Navigation) : Prop :=
  Path s (s.joins.zip (navigations (journal model e))) (.join a) path

theorem tableShape_run (h : (navigation.run ctx e).Gives .fresh r s) :
    TableShape ctx.model (journal ctx.model e) s := by
  obtain ⟨key, x, hx, -, rfl⟩ := gives_run.mp h
  have hjournal := becomes_journal ctx.model e
  have hstart : Tabled ctx.model { state := .fresh } [] :=
    ⟨.of_no_joins rfl, List.forall_mem_nil _, .nil⟩
  unfold Gives at hx
  rw [hx] at hjournal
  exact (hstart.becomes hjournal).shape

/-- A join that stands in an expanded query is one from the outside exactly if a navigation on its path
is not required. So the joins over default rows are all of that kind exactly if each of their paths
has such a navigation. -/
theorem join_kind_by_path (he : e.Everywhere fun n => n.joinLabel? = none)
    (h : (navigation.run ctx e).Gives .fresh r s) :
    (∀ n ∈ r.nodes, ∀ label ∈ n.joinLabel?,
        (∃ path, PathTo ctx.model e s label.row path) ∧
        ∀ path, PathTo ctx.model e s label.row path →
          (label.kind = .leftOuter ↔ ∃ nav ∈ path, nav.required = false)) ∧
      ((∀ n ∈ r.nodes, ∀ label ∈ n.joinLabel?, n.OverDefault → label.kind = .leftOuter) ↔
        ∀ n ∈ r.nodes, ∀ label ∈ n.joinLabel?, n.OverDefault →
          ∀ path, PathTo ctx.model e s label.row path → ∃ nav ∈ path, nav.required = false) := by
  have hshape := tableShape_run h
  have hkinds : ∀ n ∈ r.nodes, ∀ label ∈ n.joinLabel?,
      (∃ path, PathTo ctx.model e s label.row path) ∧
      ∀ path, PathTo ctx.model e s label.row path →
        (label.kind = .leftOuter ↔ ∃ nav ∈ path, nav.required = false) := by
    intro n hn label hlabel
    obtain ⟨entry, hentry, hrow, -, hkind⟩ := listed_run he h n hn label hlabel
    rw [← hrow, ← hkind]
    refine ⟨hshape.reached entry hentry, fun path hpath => ?_⟩
    have hinner := hshape.required entry hentry path hpath
    have hother : entry.2.kind = .leftOuter ↔ ¬ entry.2.kind = .inner := by
      cases entry.2.kind <;> decide
    rw [hother, hinner]
    simp
  refine ⟨hkinds, ?_⟩
  constructor
  · intro houter n hn label hlabel hdefault path hpath
    exact ((hkinds n hn label hlabel).2 path hpath).mp (houter n hn label hlabel hdefault)
  · intro hpaths n hn label hlabel hdefault
    obtain ⟨⟨path, hpath⟩, hkind⟩ := hkinds n hn label hlabel
    exact (hkind path hpath).mpr (hpaths n hn label hlabel hdefault path hpath)

/-- The name of the customer of an order. -/
def customerName : Expr :=
  .member (.member (.param NullGuard.orderRow) "Customer" (.entity "Customer")) "Name" .utf8

/-- The join for the customer, around the orders or a default row. -/
def customerJoin : Expr :=
  .navigationJoin ⟨⟨0⟩, "Customer", .inner⟩ NullGuard.ordersWithDefault
    (.baseTable ⟨0⟩ none "customers" "Customer")
    (.lambda [⟨"r", .entity "Order"⟩]
      (.member (.param ⟨"r", .entity "Order"⟩) "CustomerId" .int32))
    (.lambda [⟨"i", .entity "Customer"⟩]
      (.member (.param ⟨"i", .entity "Customer"⟩) "Id" .int32))

def joinedNames : Expr :=
  .call ⟨"Queryable", "Select", [.entity "Order", .utf8]⟩ none
    [customerJoin, .quote (.lambda [NullGuard.orderRow]
      (.member (.sourceRef ⟨0⟩ "Customer") "Name" .utf8))] (.queryable .utf8)

/-- What is recorded when the query has been expanded. -/
def joinedNamesState : State :=
  ⟨{}, [((.root 0, "Customer"), ⟨⟨0⟩, "Customer", .root 0, .inner⟩)], [.entity "Order", .utf8], 1⟩

theorem run_customerName :
    (navigation.run ⟨Sample.model, Sample.catalog⟩ (NullGuard.selectOrDefault customerName)).Gives
      .fresh joinedNames joinedNamesState := by
  unfold Gives
  cbv

theorem customerJoin_mem_nodes : customerJoin ∈ joinedNames.nodes :=
  mem_nodes_of_mem_children List.mem_cons_self (self_mem_nodes _)

theorem isRelational_customerName :
    (NullGuard.selectOrDefault customerName).Everywhere fun n => n.isRelational = false := by
  have hnodes : ((NullGuard.selectOrDefault customerName).nodes.all
      fun n => !n.isRelational) = true := by cbv
  intro n hn
  simpa using List.all_eq_true.mp hnodes n hn

/-- All navigations on the way to the customer are required, so the join is an inner join. -/
theorem customer_of_default_order_by_path :
    ((NullGuard.selectOrDefault customerName).Everywhere fun n => n.joinLabel? = none) ∧
      (navigation.run ⟨Sample.model, Sample.catalog⟩ (NullGuard.selectOrDefault customerName)).Gives
        .fresh joinedNames joinedNamesState ∧
      ∃ path, PathTo Sample.model (NullGuard.selectOrDefault customerName) joinedNamesState ⟨0⟩
          path ∧
        ∀ nav ∈ path, nav.required = true := by
  have hnone := isRelational_customerName.mono fun _ => joinLabel?_of_not_isRelational
  refine ⟨hnone, run_customerName, ?_⟩
  obtain ⟨hkinds, -⟩ := join_kind_by_path hnone run_customerName
  obtain ⟨⟨path, hpath⟩, hkind⟩ := hkinds customerJoin customerJoin_mem_nodes _ rfl
  refine ⟨path, hpath, fun nav hnav => ?_⟩
  cases hrequired : nav.required with
  | true => rfl
  | false =>
    have houter := (hkind path hpath).mpr ⟨nav, hnav, hrequired⟩
    cases houter

/-- The join for the customer of an order, or of a default row, is an inner join, and so the default
row is lost. -/
theorem join_over_default_order_is_inner :
    Model.ofEntities [Sample.shipment, Sample.orderLine, Sample.order, Sample.customer,
        Sample.address] = .ok Sample.model ∧
      ((NullGuard.selectOrDefault customerName).Everywhere fun n => n.isRelational = false) ∧
      (navigation.run ⟨Sample.model, Sample.catalog⟩ (NullGuard.selectOrDefault customerName)).Gives
        .fresh joinedNames joinedNamesState ∧
      customerJoin ∈ joinedNames.nodes ∧ customerJoin.OverDefault ∧
      customerJoin.joinLabel? = some ⟨⟨0⟩, "Customer", .inner⟩ := by
  have hmodel : Model.ofEntities [Sample.shipment, Sample.orderLine, Sample.order, Sample.customer,
      Sample.address] = .ok Sample.model := by cbv
  have hdefault : NullGuard.ordersWithDefault.SuppliesDefault := ⟨rfl, by cbv⟩
  exact ⟨hmodel, isRelational_customerName, run_customerName, customerJoin_mem_nodes,
    ⟨_, .outer .self, hdefault⟩, rfl⟩

end Pass.Navigation

end QueryLowering
