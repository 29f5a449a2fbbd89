import QueryLowering.Proofs.Settled

/-!
What markers leave behind. Taking out markers walks through a tree from the leaves to the root and
from left to right, but of a marker it enters the source only, which then takes the place of the
marker. The metadata afterwards tells of the markers that were met, and of nothing else: each tag in
its turn, the last word on tracking, and whether filters are to be ignored.
-/

namespace QueryLowering.Pass.Markers

open QueryLowering.Expr StateStep

variable {m m' m'' : Metadata} {e n r : Expr} {ns ks : List Expr} {marker : Marker}

/-- The children that are looked at: all of them, but of a marker only the first argument. -/
def entered : Expr → List Expr
  | .call m receiver args type =>
    if (Marker.of? m).isSome then args.take 1 else (Expr.call m receiver args type).children
  | e => e.children

theorem mem_children_of_mem_entered {c : Expr} (h : c ∈ entered e) : c ∈ e.children := by
  unfold entered at h
  split at h
  · split at h
    · exact List.mem_append_right _ (List.mem_of_mem_take h)
    · exact h
  · exact h

theorem entered_of_marker?_eq_none (h : e.marker? = none) : entered e = e.children := by
  unfold entered
  split
  · rename_i method receiver args type
    have hm : Marker.of? method = none := h
    rw [hm, Option.isSome_none, if_neg Bool.false_ne_true]
  · rfl

theorem entered_marker {method : Method} {receiver : Option Expr} {source : Expr}
    {rest : List Expr} {type : DataType} (hm : Marker.of? method = some marker) :
    entered (.call method receiver (source :: rest) type) = [source] := by
  rw [entered, hm]
  rfl

/-- The nodes that are met, each after those below it. -/
def walk (e : Expr) : List Expr := ((entered e).attach.flatMap fun c => walk c.1) ++ [e]
termination_by e
decreasing_by exact sizeOf_lt_of_mem_children (mem_children_of_mem_entered c.2)

theorem walk_eq (e : Expr) : walk e = (entered e).flatMap walk ++ [e] := by
  rw [walk]
  simp

/-- A call that puts a tag on its first argument. -/
inductive Tags : Expr → String → Prop
  | mk {method : Method} {receiver : Option Expr} {source : Expr} {tag : String}
      {type tagType : DataType} {rest : List Expr} :
      Marker.of? method = some .tagWith →
      Tags (.call method receiver (source :: .const (.scalar (.utf8 tag)) tagType :: rest) type) tag

/-- What a marker says about tracking. -/
def tracking? (e : Expr) : Option Tracking :=
  match e.marker? with
  | some .asTracking => some .tracking
  | some .asNoTracking => some .noTracking
  | _ => none

/-- The later metadata tell what the earlier ones do, and of the markers among the nodes besides. -/
structure Records (m : Metadata) (ns : List Expr) (m' : Metadata) : Prop where
  tags : ∃ tags, m'.tags = m.tags ++ tags ∧
    List.Forall₂ Tags (ns.filter fun n => n.marker? = some .tagWith) tags
  tracking : m'.tracking = (ns.filterMap tracking?).getLast?.getD m.tracking
  ignoreQueryFilters : m'.ignoreQueryFilters = true ↔
    m.ignoreQueryFilters = true ∨ ∃ n ∈ ns, n.marker? = some .ignoreQueryFilters

theorem Records.nil (m : Metadata) : Records m [] m where
  tags := ⟨[], (List.append_nil _).symm, .nil⟩
  tracking := rfl
  ignoreQueryFilters := by simp

theorem Records.append (h : Records m ns m') (h' : Records m' ks m'') :
    Records m (ns ++ ks) m'' where
  tags := by
    obtain ⟨tags, htags, hall⟩ := h.tags
    obtain ⟨tags', htags', hall'⟩ := h'.tags
    refine ⟨tags ++ tags', ?_, ?_⟩
    · rw [htags', htags, List.append_assoc]
    · rw [List.filter_append]
      exact List.rel_append hall hall'
  tracking := by
    rw [h'.tracking, h.tracking, List.filterMap_append, List.getLast?_append, Option.getD_or]
  ignoreQueryFilters := by
    rw [h'.ignoreQueryFilters, h.ignoreQueryFilters, or_assoc]
    simp only [List.mem_append, or_and_right, exists_or]

/-- Of other nodes nothing is recorded. -/
theorem Records.of_marker?_eq_none (h : n.marker? = none) (m : Metadata) : Records m [n] m where
  tags := ⟨[], (List.append_nil _).symm, by simp [h]⟩
  tracking := by simp [tracking?, h]
  ignoreQueryFilters := by simp [h]

theorem tag?_eq_some {arg : Option Expr} {tag : String} (h : tag? arg = some tag) :
    ∃ type, arg = some (.const (.scalar (.utf8 tag)) type) := by
  unfold tag? at h
  split at h
  · cases h
    exact ⟨_, rfl⟩
  · cases h

/-- A marker is recorded with its further argument. -/
theorem Records.of_record {method : Method} {receiver : Option Expr} {source : Expr}
    {rest : List Expr} {type : DataType} (hm : Marker.of? method = some marker)
    (h : record marker rest.head? m = some m') :
    Records m [.call method receiver (source :: rest) type] m' := by
  have hmarker : (Expr.call method receiver (source :: rest) type).marker? = some marker := hm
  cases marker with
  | tagWith =>
    obtain ⟨tag, htag, rfl⟩ := Option.map_eq_some_iff.mp h
    obtain ⟨tagType, hhead⟩ := tag?_eq_some htag
    obtain ⟨more, rfl⟩ := List.head?_eq_some_iff.mp hhead
    refine ⟨⟨[tag], rfl, ?_⟩, by simp [tracking?, hmarker], by simp [hmarker]⟩
    simpa [hmarker] using Tags.mk hm
  | asTracking | asNoTracking | ignoreQueryFilters =>
    cases h
    refine ⟨⟨[], (List.append_nil _).symm, ?_⟩, ?_, ?_⟩
    · simp [hmarker]
    · simp [tracking?, hmarker]
    · simp [hmarker]

/-- Siblings are walked one after the other. -/
theorem records_mapM {cs rs : List Expr}
    (ih : ∀ c ∈ cs, ∀ {m m' r}, (strip c).Gives m r m' → Records m (walk c) m')
    (h : (cs.mapM strip).Gives m rs m') : Records m (cs.flatMap walk) m' := by
  induction cs generalizing m rs with
  | nil =>
    obtain ⟨-, rfl⟩ := gives_mapM_nil.mp h
    exact .nil m'
  | cons c cs ih' =>
    obtain ⟨r, t, rs, hc, hcs, -⟩ := gives_mapM_cons.mp h
    rw [List.flatMap_cons]
    exact (ih c List.mem_cons_self hc).append
      (ih' (fun d hd => ih d (List.mem_cons_of_mem _ hd)) hcs)

theorem records_strip (h : (strip e).Gives m r m') : Records m (walk e) m' := by
  induction e using childInduction generalizing m r m' with
  | step e ih =>
    rcases strip_cases h with
      ⟨hmarker, h⟩ | ⟨method, receiver, source, rest, type, marker, t, rfl, hm, hsource, hrecord⟩
    · -- A node that is no marker adds nothing to what its children tell.
      rw [traverse_eq] at h
      obtain ⟨rs, hrs, -⟩ := gives_map.mp h
      rw [walk_eq, entered_of_marker?_eq_none hmarker]
      exact (records_mapM ih hrs).append (.of_marker?_eq_none hmarker m')
    · rw [walk_eq, entered_marker hm, List.flatMap_singleton]
      exact (ih source (by simp [children]) hsource).append (.of_record hm hrecord)

/-- The tree with the first arguments of its markers in their places. -/
def bare (e : Expr) : Expr :=
  match e with
  | .call m receiver args type =>
    match Marker.of? m, args with
    | some _, source :: _ => bare source
    | _, args => (Expr.call m receiver args type).mapChildren fun c _ => bare c
  | e => e.mapChildren fun c _ => bare c
termination_by e
decreasing_by
  · exact sizeOf_lt_of_mem_children (by simp [children])
  · exact sizeOf_lt_of_mem_children ‹_›
  · exact sizeOf_lt_of_mem_children ‹_›

theorem bare_marker {method : Method} {receiver : Option Expr} {source : Expr} {rest : List Expr}
    {type : DataType} (hm : Marker.of? method = some marker) :
    bare (.call method receiver (source :: rest) type) = bare source := by
  rw [bare.eq_def]
  simp only [hm]

theorem bare_of_marker?_eq_none (h : e.marker? = none) :
    bare e = e.setChildren (e.children.map bare) := by
  cases e with
  | call method receiver args type =>
    have hm : Marker.of? method = none := h
    rw [bare.eq_def]
    simp only [hm, mapChildren_eq]
  | _ =>
    rw [bare, mapChildren_eq]
    all_goals
      intros
      contradiction

theorem eq_bare_of_strip (h : (strip e).Gives m r m') : r = bare e := by
  induction e using childInduction generalizing m r m' with
  | step e ih =>
    rcases strip_cases h with
      ⟨hmarker, h⟩ | ⟨method, receiver, source, rest, type, marker, t, rfl, hm, hsource, -⟩
    · rw [traverse_eq] at h
      obtain ⟨rs, hrs, rfl⟩ := gives_map.mp h
      have hall := hrs.forall₂ (fun c d => bare c = d) fun c hc t d t' hd => (ih c hc hd).symm
      rw [← List.forall₂_map_left_iff (f := bare), List.forall₂_eq_eq_eq] at hall
      rw [bare_of_marker?_eq_none hmarker, hall]
    · rw [bare_marker hm]
      exact ih source (by simp [children]) hsource

/-- Extraction puts the first arguments of markers in their places, so that no marker is left, records
exactly the markers that it meets and touches nothing else of the state; on its result it does
nothing. -/
theorem extraction_complete {ctx : Context} {s s' : State} {e' : Expr}
    (h : (Pass.markers.run ctx e).Gives s e' s') :
    e' = bare e ∧ (∀ n ∈ e'.nodes, n.marker? = none) ∧
      Records s.metadata (walk e) s'.metadata ∧ s' = { s with metadata := s'.metadata } ∧
      ∀ t, (Pass.markers.run ctx e').Gives t e' t := by
  rw [run] at h
  obtain ⟨m, hm, rfl⟩ := gives_zoom.mp h
  have hnone : e'.Everywhere fun n => n.marker? = none :=
    (everywhere_strip (fun _ _ _ => trivial) (fun _ _ => trivial) hm).mono fun n hn => hn.2
  refine ⟨eq_bare_of_strip hm, hnone, records_strip hm, rfl, fun t => ?_⟩
  rw [run]
  exact gives_zoom.mpr ⟨t.metadata, gives_strip hnone t.metadata, rfl⟩

/-- A query for orders with lines, both marked. -/
def ordersWithLines : Expr :=
  .call ⟨"Queryable", "TagWith", [.entity "Order"]⟩ none
    [.call ⟨"Queryable", "Where", [.entity "Order"]⟩ none
      [.call ⟨"Queryable", "AsNoTracking", [.entity "Order"]⟩ none
        [.entitySet "Order"] (.queryable (.entity "Order")),
        .quote (.lambda [⟨"o", .entity "Order"⟩]
          (.call ⟨"Queryable", "Any", [.entity "OrderLine"]⟩ none
            [.call ⟨"Queryable", "TagWith", [.entity "OrderLine"]⟩ none
              [.call ⟨"Queryable", "AsTracking", [.entity "OrderLine"]⟩ none
                [.entitySet "OrderLine"] (.queryable (.entity "OrderLine")),
                .literal (.utf8 "lines")] (.queryable (.entity "OrderLine"))] .boolean))]
      (.queryable (.entity "Order")), .literal (.utf8 "orders")] (.queryable (.entity "Order"))

/-- The same query without its markers. -/
def bareOrdersWithLines : Expr :=
  .call ⟨"Queryable", "Where", [.entity "Order"]⟩ none
    [.entitySet "Order",
      .quote (.lambda [⟨"o", .entity "Order"⟩]
        (.call ⟨"Queryable", "Any", [.entity "OrderLine"]⟩ none [.entitySet "OrderLine"] .boolean))]
    (.queryable (.entity "Order"))

theorem extraction_complete_of_orders :
    (Pass.markers.run ⟨Sample.model, Sample.catalog⟩ ordersWithLines).Gives
        { metadata := ⟨["before"], .default, true⟩ } bareOrdersWithLines
        { metadata := ⟨["before", "lines", "orders"], .tracking, true⟩ } ∧
      Records ⟨["before"], .default, true⟩ (walk ordersWithLines)
        ⟨["before", "lines", "orders"], .tracking, true⟩ := by
  have h : (Pass.markers.run ⟨Sample.model, Sample.catalog⟩ ordersWithLines).Gives
      { metadata := ⟨["before"], .default, true⟩ } bareOrdersWithLines
      { metadata := ⟨["before", "lines", "orders"], .tracking, true⟩ } := by
    unfold Gives
    cbv
  exact ⟨h, (extraction_complete h).2.2.1⟩

end QueryLowering.Pass.Markers
