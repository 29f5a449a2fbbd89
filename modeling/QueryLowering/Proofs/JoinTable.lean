import QueryLowering.Proofs.JoinFrames
import QueryLowering.Proofs.JoinJournal
import QueryLowering.Sample

/-!
The shape of the join table. Its entries are the edges of a forest over the registered roots: each one
starts from a root or from the rows of an earlier entry, and lies below the root that its start lies
below. Its join is an inner join exactly if all navigations on the way from the root are required. The
table has this shape in every state that the expansion goes through.
-/

namespace QueryLowering.Pass.Navigation

open QueryLowering.Expr StateStep

/-- The navigations that joins were made for, in the order of the joins. -/
def navigations (cs : List Change) : List QueryLowering.Navigation :=
  cs.filterMap fun
    | .join _ n _ => some n
    | _ => none

/-- No row of the source can be missing: it is a root, or it was joined from the inside. -/
def Present (s : State) (key : SourceKey) : Prop :=
  (∃ i, key = .root i) ∨ ∃ e ∈ s.joins, key = .join e.2.row ∧ e.2.kind = .inner

/-- What is recorded of a join that was made for a navigation. -/
structure MadeFor (model : Model) (s : State) (e : (SourceKey × String) × Join)
    (n : QueryLowering.Navigation) : Prop where
  declared : ∃ declaring ∈ model.entities, n ∈ declaring.navigations
  name : e.1.2 = n.name
  kind : e.2.kind = .inner ↔ n.required = true ∧ Present s e.1.1

/-- Joins, each with the navigation that it was made for, lead from a registered root to a source along
navigations. -/
inductive Path (s : State) (joins : List (((SourceKey × String) × Join) × QueryLowering.Navigation)) :
    SourceKey → List QueryLowering.Navigation → Prop
  | root {key : SourceKey} (h : Known s key) : Path s joins key []
  | join {e : (SourceKey × String) × Join} {n : QueryLowering.Navigation}
      {path : List QueryLowering.Navigation} (hpath : Path s joins e.1.1 path)
      (he : (e, n) ∈ joins) : Path s joins (.join e.2.row) (path ++ [n])

/-- The shape of the join table after changes. -/
structure TableShape (model : Model) (cs : List Change) (s : State) : Prop where
  distinct : (s.joins.map fun e => e.2.row).Nodup
  issued : ∀ e ∈ s.joins, e.2.row.number < s.nextAlias
  anchors : ∀ e ∈ s.joins, Known s e.2.anchor
  starts : ∀ e ∈ s.joins, e.1.1 = e.2.anchor ∨ ∃ e' ∈ s.joins, e.1.1 = .join e'.2.row ∧
    e'.2.anchor = e.2.anchor ∧ e'.2.row.number < e.2.row.number
  kinds : List.Forall₂ (MadeFor model s) s.joins (navigations cs)
  reached : ∀ e ∈ s.joins, ∃ path, Path s (s.joins.zip (navigations cs)) (.join e.2.row) path
  required : ∀ e ∈ s.joins, ∀ path, Path s (s.joins.zip (navigations cs)) (.join e.2.row) path →
    (e.2.kind = .inner ↔ ∀ n ∈ path, n.required = true)

variable {model : Model} {x x' : Expansion} {s s' : State} {key anchor : SourceKey} {a : Alias}
  {e : (SourceKey × String) × Join} {n : QueryLowering.Navigation} {parts : JoinParts}
  {c : Change} {cs : List Change} {ns path : List QueryLowering.Navigation}

/-- If joins have aliases of their own, the kind of one of them tells if its rows can be missing. -/
theorem present_join_iff (hdistinct : (s.joins.map fun e => e.2.row).Nodup) (he : e ∈ s.joins) :
    Present s (.join e.2.row) ↔ e.2.kind = .inner := by
  constructor
  · rintro (⟨i, hroot⟩ | ⟨e', he', hrow, hkind⟩)
    · cases hroot
    · rw [List.inj_on_of_nodup_map hdistinct he he' (SourceKey.join.inj hrow)]
      exact hkind
  · intro hkind
    exact .inr ⟨e, he, rfl, hkind⟩

/-- A source that lies below the anchor: the anchor itself, or a join that is recorded there. -/
def Below (s : State) (key anchor : SourceKey) : Prop :=
  key = anchor ∨ ∃ a, key = .join a ∧ Anchored s a anchor

/-- What is new leaves what can be missing as it is. -/
theorem present_of_grows (hgrows : Grows s s') (hdistinct : (s'.joins.map fun e => e.2.row).Nodup)
    (hanchor : Known s anchor) (hkey : Below s key anchor) : Present s' key ↔ Present s key := by
  have hdistinct' : (s.joins.map fun e => e.2.row).Nodup :=
    hdistinct.sublist (hgrows.joins.sublist.map _)
  rcases hkey with rfl | ⟨a, rfl, e, he, rfl, -⟩
  · obtain ⟨i, -, rfl⟩ := hanchor
    exact iff_of_true (.inl ⟨i, rfl⟩) (.inl ⟨i, rfl⟩)
  · rw [present_join_iff hdistinct (hgrows.joins.subset he), present_join_iff hdistinct' he]

/-- The search for an alias finds the join that has it, so it tells if rows can be missing. -/
theorem isOptional_eq_false_iff (hdistinct : (s.joins.map fun e => e.2.row).Nodup)
    (hanchor : Known s anchor) (hkey : Below s key anchor) :
    s.isOptional key = false ↔ Present s key := by
  rcases hkey with rfl | ⟨a, rfl, e, he, rfl, -⟩
  · obtain ⟨i, -, rfl⟩ := hanchor
    exact iff_of_true rfl (.inl ⟨i, rfl⟩)
  · rw [present_join_iff hdistinct he]
    change (s.joinWithAlias? e.2.row).any (fun j => j.kind == .leftOuter) = false ↔ _
    rw [joinWithAlias?_of_mem hdistinct he, Option.any_some]
    cases e.2.kind <;> decide

theorem joinKind_eq_inner_iff :
    joinKind s key n = .inner ↔ n.required = true ∧ s.isOptional key = false := by
  unfold joinKind
  split
  · exact iff_of_true rfl ‹_›
  · exact iff_of_false nofun ‹_›

/-- What every change keeps: the state is tidy, joins start from earlier ones, and each was made for its
navigation. -/
structure Tabled (model : Model) (x : Expansion) (ns : List QueryLowering.Navigation) : Prop where
  tidy : Tidy x
  starts : ∀ e ∈ x.state.joins, e.1.1 = e.2.anchor ∨ ∃ e' ∈ x.state.joins,
    e.1.1 = .join e'.2.row ∧ e'.2.anchor = e.2.anchor ∧ e'.2.row.number < e.2.row.number
  kinds : List.Forall₂ (MadeFor model x.state) x.state.joins ns

namespace Tabled

/-- A join that is recorded stays made for its navigation. -/
theorem madeFor_of_grows (hx : Tabled model x ns) (hgrows : Grows x.state s')
    (hdistinct : (s'.joins.map fun e => e.2.row).Nodup) (he : e ∈ x.state.joins)
    (h : MadeFor model x.state e n) : MadeFor model s' e n := by
  refine ⟨h.declared, h.name, ?_⟩
  rw [h.kind, present_of_grows hgrows hdistinct (hx.tidy.anchors e he) (hx.tidy.starts e he)]

theorem addRoot (hx : Tabled model x ns) (element : DataType) :
    Tabled model { x with state := (x.state.addRoot element).2 } ns := by
  refine ⟨hx.tidy.addRoot element, hx.starts, ?_⟩
  exact forall₂_imp_of_mem hx.kinds fun e he n h =>
    hx.madeFor_of_grows (.addRoot _ _) hx.tidy.distinct he h

theorem filter (hx : Tabled model x ns) (f : PendingJoin → Bool) :
    Tabled model { x with pending := x.pending.filter f } ns :=
  ⟨hx.tidy.filter f, hx.starts, hx.kinds⟩

theorem addJoin (hx : Tabled model x ns) (hallowed : (Change.join key n parts).Allowed model x) :
    Tabled model (addJoin key n parts x).2 (ns ++ [n]) := by
  obtain ⟨hnone, declaring, hdeclaring, hn, node, hparts⟩ := hallowed
  have hfits := fits_of_joinParts hparts
  have htidy := hx.tidy.addJoin hnone hfits
  have hgrows := grows_addJoin parts hnone
  have hjoins := joins_addJoin parts hnone
  refine ⟨htidy, ?_, ?_⟩
  · intro e he
    rw [hjoins] at he
    rcases List.mem_append.mp he with he | he
    · exact (hx.starts e he).imp_right fun ⟨e', he', h⟩ => ⟨e', hgrows.joins.subset he', h⟩
    · -- The new join starts from its anchor, or from one that has an alias already.
      obtain rfl := List.mem_singleton.mp he
      apply hfits.start.imp_right
      rintro ⟨a, rfl, e', he', rfl, hanchor⟩
      exact ⟨e', hgrows.joins.subset he', rfl, hanchor, hx.tidy.issued e' he'⟩
  · rw [hjoins]
    apply List.rel_append
    · exact forall₂_imp_of_mem hx.kinds fun e he n h =>
        hx.madeFor_of_grows hgrows htidy.distinct he h
    · refine .cons ⟨⟨declaring, hdeclaring, hn⟩, rfl, ?_⟩ .nil
      rw [present_of_grows hgrows htidy.distinct hfits.known hfits.start,
        ← isOptional_eq_false_iff hx.tidy.distinct hfits.known hfits.start]
      exact joinKind_eq_inner_iff

/-- One change keeps the table in shape. -/
theorem after (hx : Tabled model x ns) (hc : c.Allowed model x) :
    Tabled model (x.after c) (ns ++ navigations [c]) := by
  cases c with
  | root element =>
    show Tabled model _ (ns ++ [])
    rw [List.append_nil]
    exact hx.addRoot element
  | join key n parts => exact hx.addJoin hc
  | attach anchor =>
    show Tabled model _ (ns ++ [])
    rw [List.append_nil]
    exact hx.filter _

/-- So do all changes that may be made one after the other. -/
theorem becomes (hx : Tabled model x ns) (h : Becomes model x cs x') :
    Tabled model x' (ns ++ navigations cs) := by
  induction h generalizing ns with
  | nil x =>
    show Tabled model x (ns ++ [])
    rw [List.append_nil]
    exact hx
  | @cons x x' c cs hc _ ih =>
    have hcons : navigations (c :: cs) = navigations [c] ++ navigations cs :=
      List.filterMap_append (l := [c])
    rw [hcons, ← List.append_assoc]
    exact ih (hx.after hc)

/-- Rows at the end of a path cannot be missing exactly if all navigations along it are required. -/
theorem present_iff_of_path (hx : Tabled model x ns)
    (h : Path x.state (x.state.joins.zip ns) key path) :
    Present x.state key ↔ ∀ n ∈ path, n.required = true := by
  induction h with
  | root hknown =>
    obtain ⟨i, -, rfl⟩ := hknown
    exact iff_of_true (.inl ⟨i, rfl⟩) (List.forall_mem_nil _)
  | @join e n path _ he ih =>
    have hmade : MadeFor model x.state e n := (List.forall₂_iff_zip.mp hx.kinds).2 he
    rw [present_join_iff hx.tidy.distinct (List.of_mem_zip he).1, hmade.kind, ih]
    simp only [List.mem_append, List.mem_singleton, or_imp, forall_and, forall_eq]
    exact and_comm

/-- Every join lies at the end of a path. -/
theorem exists_path (hx : Tabled model x ns) (he : e ∈ x.state.joins) :
    ∃ path, Path x.state (x.state.joins.zip ns) (.join e.2.row) path := by
  -- The aliases become smaller on the way to the root.
  induction hnumber : e.2.row.number using Nat.strong_induction_on generalizing e with
  | _ number ih =>
    obtain ⟨n, hn⟩ : ∃ n, (e, n) ∈ x.state.joins.zip ns := by
      obtain ⟨i, hi, rfl⟩ := List.getElem_of_mem he
      have hlength := hx.kinds.length_eq
      exact ⟨ns[i], List.mem_iff_getElem.mpr ⟨i, by simp; omega, List.getElem_zip⟩⟩
    have hstart : ∃ path, Path x.state (x.state.joins.zip ns) e.1.1 path := by
      rcases hx.starts e he with hroot | ⟨e', he', hkey, -, hlt⟩
      · rw [hroot]
        exact ⟨[], .root (hx.tidy.anchors e he)⟩
      · rw [hkey]
        exact ih e'.2.row.number (hnumber ▸ hlt) he' rfl
    obtain ⟨path, hpath⟩ := hstart
    exact ⟨path ++ [n], .join hpath hn⟩

theorem shape (hx : Tabled model x (navigations cs)) : TableShape model cs x.state where
  distinct := hx.tidy.distinct
  issued := hx.tidy.issued
  anchors := hx.tidy.anchors
  starts := hx.starts
  kinds := hx.kinds
  reached _ he := hx.exists_path he
  required e he path hpath := by
    rw [← hx.present_iff_of_path hpath, present_join_iff hx.tidy.distinct he]

end Tabled

/-- The pass leaves the state that the expansion leaves, also if a join is left over. -/
theorem snd_run_run (model : Model) (e : Expr) (s : State) :
    ((run model e).run.run s).2 =
      ((expand model [] (fun _ => none) e).run.run { state := s }).2.state := by
  rw [run_run]
  rcases (expand model [] (fun _ => none) e).run.run { state := s } with ⟨_ | ⟨r, key⟩, x⟩
  · rfl
  · dsimp only
    split <;> rfl

/-- In every state that the expansion of a query goes through, up to its end or its failure, the join
table is in shape. -/
theorem join_table_shape (ctx : Context) (e : Expr) :
    ((navigation.run ctx e).run.run .fresh).2 = (keptAfter (journal ctx.model e)).state ∧
      ∀ cs, cs <+: journal ctx.model e → TableShape ctx.model cs (keptAfter cs).state := by
  have hjournal := becomes_journal ctx.model e
  refine ⟨?_, ?_⟩
  · calc
      ((navigation.run ctx e).run.run .fresh).2
          = ((expand ctx.model [] (fun _ => none) e).run.run { state := .fresh }).2.state :=
            snd_run_run ctx.model e .fresh
      _ = (keptAfter (journal ctx.model e)).state := congrArg Expansion.state hjournal.eq_foldl
  · rintro cs ⟨rest, hrest⟩
    rw [← hrest] at hjournal
    have hstart : Tabled ctx.model { state := .fresh } [] :=
      ⟨.of_no_joins rfl, List.forall_mem_nil _, .nil⟩
    exact (hstart.becomes hjournal.of_append).shape

/-- The names of the customers of shipped orders. -/
def shippedNames : Expr :=
  let s : Param := ⟨"s", .entity "Shipment"⟩
  let line : Expr := .member (.param s) "Line" (.entity "OrderLine")
  let customer : Expr :=
    .member (.member line "Order" (.entity "Order")) "Customer" (.entity "Customer")
  .call ⟨"Queryable", "Select", []⟩ none
    [.entitySet "Shipment", .quote (.lambda [s] (.member customer "Name" .utf8))] (.queryable .utf8)

/-- The line of a shipment may be missing, so its order and customer, though required, are joined from
the outside. -/
example :
    (keptAfter (journal Sample.model shippedNames)).state.joins.map
        (fun e => (e.1.1, e.1.2, e.2.row.number, e.2.kind)) =
      [(.root 0, "Line", 0, .leftOuter), (.join ⟨0⟩, "Order", 1, .leftOuter),
        (.join ⟨1⟩, "Customer", 2, .leftOuter)] := by
  cbv

end QueryLowering.Pass.Navigation
