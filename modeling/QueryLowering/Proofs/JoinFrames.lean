import QueryLowering.Proofs.Capture
import QueryLowering.Proofs.RowSpine

/-!
What the expansion of navigations does to joins. A join is recorded below a root and waits until it is
put around the source with that root; the sources in view when it is made are the only ones it can lie
below. A frame says this of a piece of an expansion, and frames of consecutive pieces compose.
-/

namespace QueryLowering.Pass.Navigation

open QueryLowering.Expr StateStep

/-- The join with the alias is recorded, below the anchor. -/
def Anchored (s : State) (a : Alias) (anchor : SourceKey) : Prop :=
  ∃ e ∈ s.joins, e.2.row = a ∧ e.2.anchor = anchor

/-- The key is that of a registered root. -/
def Known (s : State) (key : SourceKey) : Prop := ∃ i < s.roots.length, key = .root i

/-- The key is that of a root that is registered only later. -/
def Fresh (s : State) (key : SourceKey) : Prop := ∃ i ≥ s.roots.length, key = .root i

/-- The join with the alias is recorded, below one of the sources in view. -/
def InView (V : SourceKey → Prop) (s : State) (a : Alias) : Prop :=
  ∃ anchor, V anchor ∧ Anchored s a anchor

variable {s s' : State} {a : Alias} {key anchor : SourceKey} {V W : SourceKey → Prop}

theorem Anchored.mono (h : Anchored s a anchor) (hgrows : Grows s s') : Anchored s' a anchor := by
  obtain ⟨e, he, hrow, hanchor⟩ := h
  exact ⟨e, hgrows.joins.subset he, hrow, hanchor⟩

theorem Known.mono (h : Known s key) (hgrows : Grows s s') : Known s' key := by
  obtain ⟨i, hi, rfl⟩ := h
  exact ⟨i, Nat.lt_of_lt_of_le hi hgrows.roots.length_le, rfl⟩

theorem Fresh.anti (h : Fresh s' key) (hgrows : Grows s s') : Fresh s key := by
  obtain ⟨i, hi, rfl⟩ := h
  exact ⟨i, Nat.le_trans hgrows.roots.length_le hi, rfl⟩

theorem Known.not_fresh (h : Known s key) : ¬ Fresh s key := by
  rintro ⟨i, hi, rfl⟩
  obtain ⟨j, hj, heq⟩ := h
  cases heq
  omega

theorem InView.mono (h : InView V s a) (hgrows : Grows s s') : InView V s' a := by
  obtain ⟨anchor, hanchor, ha⟩ := h
  exact ⟨anchor, hanchor, ha.mono hgrows⟩

/-- A join that is found for a source and a navigation has been recorded for them. -/
theorem mem_of_findJoin? {name : String} {j : Join} (h : s.findJoin? key name = some j) :
    ((key, name), j) ∈ s.joins :=
  mem_of_lookup h

/-- If joins have aliases of their own, the search for an alias finds the join that has it. -/
theorem joinWithAlias?_of_mem (hdistinct : (s.joins.map fun e => e.2.row).Nodup)
    {e : (SourceKey × String) × Join} (he : e ∈ s.joins) :
    s.joinWithAlias? e.2.row = some e.2 := by
  have hfound : (s.joinWithAlias? e.2.row).isSome = true := by
    unfold State.joinWithAlias?
    rw [List.find?_isSome]
    exact ⟨e.2, List.mem_map_of_mem he, beq_self_eq_true _⟩
  obtain ⟨j, hj⟩ := Option.isSome_iff_exists.mp hfound
  obtain ⟨e', he', rfl⟩ := List.mem_map.mp (List.mem_of_find?_eq_some hj)
  have hrow : e'.2.row = e.2.row := by simpa using List.find?_some hj
  rw [hj, List.inj_on_of_nodup_map hdistinct he' he hrow]

theorem joins_addJoin {x : Expansion} {n : QueryLowering.Navigation} (parts : JoinParts)
    (hnone : x.state.findJoin? key n.name = none) :
    (addJoin key n parts x).2.state.joins = x.state.joins ++ [((key, n.name),
      ⟨⟨x.state.nextAlias⟩, parts.target.name, parts.anchor, joinKind x.state key n⟩)] := by
  rw [state_addJoin parts hnone]

theorem grows_addJoin {x : Expansion} {n : QueryLowering.Navigation} (parts : JoinParts)
    (hnone : x.state.findJoin? key n.name = none) :
    Grows x.state (addJoin key n parts x).2.state := by
  rw [state_addJoin parts hnone]
  exact ⟨rfl, List.prefix_rfl, List.prefix_append _ _, Nat.le_succ _⟩

/-- What is known of a join that waits: it is recorded, and only its outer key refers to joined rows,
all of them below its own anchor and joined earlier. -/
structure PendingJoin.Sound (s : State) (p : PendingJoin) : Prop where
  recorded : Anchored s p.label.row p.anchor
  inner : p.inner.RefersOnly fun _ => False
  innerKey : p.innerKey.RefersOnly fun _ => False
  outerKey : p.outerKey.RefersOnly fun a =>
    Anchored s a p.anchor ∧ a.number < p.label.row.number

theorem PendingJoin.Sound.mono {p : PendingJoin} (h : p.Sound s) (hgrows : Grows s s') :
    p.Sound s' :=
  ⟨h.recorded.mono hgrows, h.inner, h.innerKey,
    h.outerKey.mono fun _ ha => ⟨ha.1.mono hgrows, ha.2⟩⟩

/-- Joins have aliases of their own and lie below registered roots; one that does not start from its
anchor starts from another join below the same anchor. Those that wait do so in the order of their
aliases. -/
structure Tidy (x : Expansion) : Prop where
  distinct : (x.state.joins.map fun e => e.2.row).Nodup
  issued : ∀ e ∈ x.state.joins, e.2.row.number < x.state.nextAlias
  anchors : ∀ e ∈ x.state.joins, Known x.state e.2.anchor
  starts : ∀ e ∈ x.state.joins,
    e.1.1 = e.2.anchor ∨ ∃ a, e.1.1 = .join a ∧ Anchored x.state a e.2.anchor
  pending : ∀ p ∈ x.pending, p.Sound x.state
  ordered : x.pending.Pairwise fun p q => p.label.row.number < q.label.row.number

namespace Tidy

variable {x : Expansion}

theorem of_no_joins (hjoins : s.joins = []) : Tidy { state := s } := by
  have hnone : ∀ e, e ∉ s.joins := by
    rw [hjoins]
    exact fun e => List.not_mem_nil
  refine ⟨?_, fun e he => absurd he (hnone e), fun e he => absurd he (hnone e),
    fun e he => absurd he (hnone e), List.forall_mem_nil _, .nil⟩
  rw [hjoins]
  exact .nil

theorem anchor_unique (hx : Tidy x) {anchor' : SourceKey} (h : Anchored x.state a anchor)
    (h' : Anchored x.state a anchor') : anchor = anchor' := by
  obtain ⟨e, he, hrow, rfl⟩ := h
  obtain ⟨e', he', hrow', rfl⟩ := h'
  have heq : e = e' :=
    List.inj_on_of_nodup_map hx.distinct he he' (hrow.trans hrow'.symm)
  rw [heq]

theorem known_of_anchored (hx : Tidy x) (h : Anchored x.state a anchor) :
    Known x.state anchor := by
  obtain ⟨e, he, -, rfl⟩ := h
  exact hx.anchors e he

theorem known_of_pending (hx : Tidy x) {p : PendingJoin} (hp : p ∈ x.pending) :
    Known x.state p.anchor :=
  hx.known_of_anchored (hx.pending p hp).recorded

theorem addRoot (hx : Tidy x) (element : DataType) :
    Tidy { x with state := (x.state.addRoot element).2 } where
  distinct := hx.distinct
  issued := hx.issued
  anchors e he := (hx.anchors e he).mono (.addRoot _ _)
  starts := hx.starts
  pending p hp := (hx.pending p hp).mono (.addRoot _ _)
  ordered := hx.ordered

theorem filter (hx : Tidy x) (f : PendingJoin → Bool) :
    Tidy { x with pending := x.pending.filter f } where
  distinct := hx.distinct
  issued := hx.issued
  anchors := hx.anchors
  starts := hx.starts
  pending p hp := hx.pending p (List.mem_of_mem_filter hp)
  ordered := hx.ordered.filter f

/-- The parts of a new join fit a tidy state. -/
structure Fits (x : Expansion) (key : SourceKey) (parts : JoinParts) : Prop where
  known : Known x.state parts.anchor
  start : key = parts.anchor ∨ ∃ a, key = .join a ∧ Anchored x.state a parts.anchor
  innerKey : parts.innerKey.RefersOnly fun _ => False
  outerKey : parts.outerKey.RefersOnly fun a => Anchored x.state a parts.anchor

theorem addJoin (hx : Tidy x) {n : QueryLowering.Navigation} {parts : JoinParts}
    (hnone : x.state.findJoin? key n.name = none) (hfits : Fits x key parts) :
    Tidy (addJoin key n parts x).2 := by
  have hgrows := grows_addJoin parts hnone
  have hstate := state_addJoin parts hnone
  -- The alias of the new join is above those of all others.
  have hnumber : ∀ a anchor, Anchored x.state a anchor → a.number < x.state.nextAlias := by
    rintro a anchor ⟨e, he, rfl, -⟩
    exact hx.issued e he
  have hmem : ∀ e ∈ (Navigation.addJoin key n parts x).2.state.joins, e ∈ x.state.joins ∨
      e = ((key, n.name), ⟨⟨x.state.nextAlias⟩, parts.target.name, parts.anchor,
        joinKind x.state key n⟩) := by
    intro e he
    rw [hstate] at he
    rcases List.mem_append.mp he with he | he
    · exact .inl he
    · exact .inr (List.mem_singleton.mp he)
  refine ⟨?_, ?_, ?_, ?_, ?_, ?_⟩
  · rw [hstate]
    simp only [List.map_append, List.map_cons, List.map_nil]
    refine hx.distinct.append (List.nodup_singleton _) ?_
    intro a ha hlast
    obtain ⟨e, he, rfl⟩ := List.mem_map.mp ha
    have hlt := hx.issued e he
    rw [List.mem_singleton.mp hlast] at hlt
    exact Nat.lt_irrefl _ hlt
  · intro e he
    have hnext : (Navigation.addJoin key n parts x).2.state.nextAlias = x.state.nextAlias + 1 := by
      rw [hstate]
    rw [hnext]
    rcases hmem e he with he | rfl
    · exact Nat.lt_succ_of_lt (hx.issued e he)
    · exact Nat.lt_succ_self _
  · intro e he
    rcases hmem e he with he | rfl
    · exact (hx.anchors e he).mono hgrows
    · exact hfits.known.mono hgrows
  · intro e he
    rcases hmem e he with he | rfl
    · exact (hx.starts e he).imp_right fun ⟨a, hkey, ha⟩ => ⟨a, hkey, ha.mono hgrows⟩
    · exact hfits.start.imp_right fun ⟨a, hkey, ha⟩ => ⟨a, hkey, ha.mono hgrows⟩
  · intro p hp
    rcases pending_addJoin hp with hp | rfl
    · exact (hx.pending p hp).mono hgrows
    · refine ⟨⟨((key, n.name), ⟨⟨x.state.nextAlias⟩, parts.target.name, parts.anchor,
        joinKind x.state key n⟩), by rw [hstate]; simp, rfl, rfl⟩, ?_, hfits.innerKey, ?_⟩
      · exact refersOnly_of_children nofun (List.forall_mem_nil _)
      · exact hfits.outerKey.mono fun a ha => ⟨ha.mono hgrows, hnumber a _ ha⟩
  · refine List.pairwise_append.mpr ⟨hx.ordered, List.pairwise_singleton _ _, ?_⟩
    intro p hp q hq
    rw [List.mem_singleton.mp hq]
    exact hnumber _ _ (hx.pending p hp).recorded

end Tidy

/-- Any reference to a joined row in the node is one to an alias of a kind. -/
def RefersTo (R : Alias → Prop) (n : Expr) : Prop := ∀ a entity, n = .sourceRef a entity → R a

theorem hostPersistent_refersTo (R : Alias → Prop) : HostPersistent (RefersTo R) where
  setChildren e cs h := by
    intro a entity heq
    have hkind : e.kindName = "SourceRef" := by
      rw [← kindName_setChildren e cs, heq]
      rfl
    cases e with
    | sourceRef => exact h a entity heq
    | _ => simp [kindName] at hkind
  ordinary e _ hhost := by
    rintro a entity rfl
    cases hhost

/-- The parts that are made for a join fit the state that they are made in. -/
theorem fits_of_joinParts {model : Model} {declaring : Entity} {n : QueryLowering.Navigation}
    {node : Expr} {parts : JoinParts} {x : Expansion}
    (h : joinParts model x.state key declaring n node = .ok parts) : Tidy.Fits x key parts := by
  obtain ⟨element, outerKey, innerKey, -, hanchor, hroot, houter, hinner, ho, hi⟩ :=
    joinParts_eq_ok_iff.mp h
  -- A start that is a join lies below the same anchor.
  have hjoin : ∀ a, key = .join a → Anchored x.state a parts.anchor := by
    rintro a rfl
    obtain ⟨j, hj, hanchor⟩ := Option.map_eq_some_iff.mp hanchor
    have hrow := List.find?_some hj
    obtain ⟨e, he, rfl⟩ := List.mem_map.mp (List.mem_of_find?_eq_some hj)
    exact ⟨e, he, by simpa using hrow, hanchor⟩
  refine ⟨?_, ?_, ?_, ?_⟩
  · -- Only roots have types.
    cases hkey : parts.anchor with
    | root i =>
      rw [hkey] at hroot
      exact ⟨i, (List.getElem?_eq_some_iff.mp hroot).1, rfl⟩
    | join a =>
      rw [hkey] at hroot
      cases hroot
  · cases key with
    | root i => exact .inl (Option.some.inj hanchor)
    | join a => exact .inr ⟨a, rfl, hjoin a rfl⟩
  · rw [hi]
    apply refersOnly_of_everywhere
    have hhost := hostPersistent_refersTo fun _ => False
    exact hhost.lambda (everywhere_keyOf hhost (hhost.param _) hinner) _
  · rw [ho]
    apply refersOnly_of_everywhere
    have hhost := hostPersistent_refersTo fun a => Anchored x.state a parts.anchor
    refine hhost.lambda (everywhere_keyOf hhost ?_ houter) _
    cases key with
    | root i => exact hhost.param _
    | join a =>
      refine everywhere_of_leaf rfl ?_
      intro b entity heq
      cases heq
      exact hjoin a rfl

/-- What an expansion does if the sources in view are `V` and its result has the joins `L`. Joins are
put behind those that wait, all of them below sources in view. A new join waits, or it lies below a
root that is new and has been put into the result. -/
structure Frame (V : SourceKey → Prop) (L : Alias → Prop) (x x' : Expansion) : Prop where
  tidy : Tidy x'
  grows : Grows x.state x'.state
  pending : ∃ new, x'.pending = x.pending ++ new ∧ ∀ p ∈ new, V p.anchor
  joins : ∀ e ∈ x'.state.joins, e ∈ x.state.joins ∨
    (V e.2.anchor ∧ ∃ p ∈ x'.pending, p.label.row = e.2.row ∧ p.anchor = e.2.anchor) ∨
    (Fresh x.state e.2.anchor ∧ L e.2.row)

namespace Frame

variable {L M : Alias → Prop} {x x' t : Expansion}

theorem refl (hx : Tidy x) : Frame V L x x :=
  ⟨hx, .refl _, ⟨[], (List.append_nil _).symm, List.forall_mem_nil _⟩, fun _ he => .inl he⟩

theorem mono (h : Frame V L x x') (hVW : ∀ key, V key → W key) (hLM : ∀ a, L a → M a) :
    Frame W M x x' := by
  refine ⟨h.tidy, h.grows, ?_, fun e he => ?_⟩
  · obtain ⟨new, hnew, hanchors⟩ := h.pending
    exact ⟨new, hnew, fun p hp => hVW _ (hanchors p hp)⟩
  · rcases h.joins e he with he | ⟨hV, hp⟩ | ⟨hfresh, hL⟩
    · exact .inl he
    · exact .inr (.inl ⟨hVW _ hV, hp⟩)
    · exact .inr (.inr ⟨hfresh, hLM _ hL⟩)

/-- What waits goes on waiting. -/
theorem mem_pending (h : Frame V L x x') {p : PendingJoin} (hp : p ∈ x.pending) :
    p ∈ x'.pending := by
  obtain ⟨new, hnew, -⟩ := h.pending
  rw [hnew]
  exact List.mem_append_left _ hp

theorem trans (h : Frame V L x t) (h' : Frame V L t x') : Frame V L x x' := by
  refine ⟨h'.tidy, h.grows.trans h'.grows, ?_, fun e he => ?_⟩
  · obtain ⟨new, hnew, hanchors⟩ := h.pending
    obtain ⟨new', hnew', hanchors'⟩ := h'.pending
    refine ⟨new ++ new', ?_, ?_⟩
    · rw [hnew', hnew, List.append_assoc]
    · exact List.forall_mem_append.mpr ⟨hanchors, hanchors'⟩
  · rcases h'.joins e he with he | hwaits | ⟨hfresh, hL⟩
    · rcases h.joins e he with he | ⟨hV, p, hp, hrow⟩ | hplaced
      · exact .inl he
      · exact .inr (.inl ⟨hV, p, h'.mem_pending hp, hrow⟩)
      · exact .inr (.inr hplaced)
    · exact .inr (.inl hwaits)
    · exact .inr (.inr ⟨hfresh.anti h.grows, hL⟩)

theorem addRoot (hx : Tidy x) (element : DataType) :
    Frame V L x { x with state := (x.state.addRoot element).2 } :=
  ⟨hx.addRoot element, .addRoot _ _, ⟨[], (List.append_nil _).symm, List.forall_mem_nil _⟩,
    fun _ he => .inl he⟩

/-- Below a root that is registered and not in view there are no new joins. -/
theorem anchored (h : Frame V L x x') (hknown : Known x.state key) (hkey : ¬ V key)
    (ha : Anchored x'.state a key) : Anchored x.state a key := by
  obtain ⟨e, he, hrow, rfl⟩ := ha
  rcases h.joins e he with he | ⟨hV, -⟩ | ⟨hfresh, -⟩
  · exact ⟨e, he, hrow, rfl⟩
  · exact absurd hV hkey
  · exact absurd hfresh hknown.not_fresh

/-- The frames of the steps of a traversal make up a frame. -/
theorem mapM {α β : Type} {f : α → Step β} {N : β → Alias → Prop} {R : State → α → β → Prop}
    {as : List α} {bs : List β}
    (hmono : ∀ t t' M a b, Grows x.state t.state → Frame V M t t' → R t.state a b →
      R t'.state a b)
    (hstep : ∀ a ∈ as, ∀ t b t', Grows x.state t.state → Tidy t → (f a).Gives t b t' →
      Frame V (N b) t t' ∧ R t'.state a b)
    (hx : Tidy x) (h : (as.mapM f).Gives x bs x') :
    Frame V (fun l => ∃ b ∈ bs, N b l) x x' ∧ List.Forall₂ (R x'.state) as bs := by
  -- The state that the traversal starts in stays fixed while the list gets shorter.
  have hrun : ∀ (as' : List α) (bs' : List β) (t : Expansion), (∀ a ∈ as', a ∈ as) →
      Grows x.state t.state → Tidy t → (as'.mapM f).Gives t bs' x' →
        Frame V (fun l => ∃ b ∈ bs', N b l) t x' ∧ List.Forall₂ (R x'.state) as' bs' := by
    intro as'
    induction as' with
    | nil =>
      intro bs' t _ _ ht h
      obtain ⟨rfl, rfl⟩ := gives_mapM_nil.mp h
      exact ⟨refl ht, .nil⟩
    | cons a as' ih =>
      intro bs' t hmem hgrows ht h
      obtain ⟨b, u, bs'', hb, hbs, rfl⟩ := gives_mapM_cons.mp h
      obtain ⟨hframe, hR⟩ := hstep a (hmem a List.mem_cons_self) t b u hgrows ht hb
      have hgrows' := hgrows.trans hframe.grows
      obtain ⟨hframe', hRs⟩ := ih bs'' u (fun c hc => hmem c (List.mem_cons_of_mem _ hc)) hgrows'
        hframe.tidy hbs
      refine ⟨?_, .cons (hmono u _ _ a b hgrows' hframe' hR) hRs⟩
      refine (hframe.mono (fun _ hV => hV) ?_).trans (hframe'.mono (fun _ hV => hV) ?_)
      · exact fun l hl => ⟨b, List.mem_cons_self, hl⟩
      · rintro l ⟨c, hc, hl⟩
        exact ⟨c, List.mem_cons_of_mem _ hc, hl⟩
  exact hrun as bs x (fun _ ha => ha) (.refl _) hx h

end Frame

/-- A sequence with the key of its rows: the key is that of a new root, and all joins below the root
are on the row spine. -/
structure Sourced (s s' : State) (e : Expr) (key : SourceKey) : Prop where
  fresh : Fresh s key
  known : Known s' key
  carries : ∀ a, Anchored s' a key → e.Carries a

theorem Sourced.later {t x' : Expansion} {L : Alias → Prop} {e : Expr}
    (h : Sourced s t.state e key) (hframe : Frame V L t x') (hkey : ¬ V key) :
    Sourced s x'.state e key :=
  ⟨h.fresh, h.known.mono hframe.grows, fun a ha => h.carries a (hframe.anchored h.known hkey ha)⟩

theorem Sourced.earlier {e : Expr} {s₀ : State} (h : Sourced s s' e key) (hgrows : Grows s₀ s) :
    Sourced s₀ s' e key :=
  ⟨h.fresh.anti hgrows, h.known, h.carries⟩

/-- A root that has just been registered has no joins below it, so any sequence has its rows. -/
theorem Sourced.addRoot {x : Expansion} (hx : Tidy x) (hgrows : Grows s x.state) (e : Expr)
    (element : DataType) :
    Sourced s (x.state.addRoot element).2 e (.root x.state.roots.length) := by
  refine ⟨⟨_, hgrows.roots.length_le, rfl⟩, ⟨_, ?_, rfl⟩, ?_⟩
  · simp [State.addRoot]
  · intro a ha
    obtain ⟨i, hi, heq⟩ := hx.known_of_anchored (show Anchored x.state a _ from ha)
    cases heq
    exact absurd hi (Nat.lt_irrefl _)

section Attach

variable {e : Expr} {ps : List PendingJoin}

theorem carries_attachAll (h : e.Carries a) : (attachAll e ps).Carries a := by
  unfold attachAll
  induction ps generalizing e with
  | nil => exact h
  | cons p ps ih => exact ih h.outer

theorem hasJoin_attachAll (h : e.HasJoin a) : (attachAll e ps).HasJoin a := by
  unfold attachAll
  induction ps generalizing e with
  | nil => exact h
  | cons p ps ih => exact ih (h.of_child (by simp [children]))

theorem carries_attachAll_of_mem {p : PendingJoin} (h : p ∈ ps) :
    (attachAll e ps).Carries p.label.row := by
  induction ps generalizing e with
  | nil => cases h
  | cons q ps ih =>
    rcases List.mem_cons.mp h with rfl | h
    · exact carries_attachAll (e := .navigationJoin p.label e p.inner p.outerKey p.innerKey)
        (carries_label _ _ _ _ _)
    · exact ih h

/-- The joins that wait for one anchor are put around a source. If the source already has all other
joins below the anchor, then each sees the joins that its outer key refers to. -/
theorem refersOnly_attachAll {R : Alias → Prop} (he : e.RefersOnly R)
    (hps : ∀ p ∈ ps, p.Sound s ∧ p.anchor = anchor)
    (hordered : ps.Pairwise fun p q => p.label.row.number < q.label.row.number)
    (hcarries : ∀ a, Anchored s a anchor → e.Carries a ∨ ∃ p ∈ ps, p.label.row = a) :
    (attachAll e ps).RefersOnly R := by
  unfold attachAll
  induction ps generalizing e with
  | nil => exact he
  | cons p ps ih =>
    obtain ⟨hsound, hanchor⟩ := hps p List.mem_cons_self
    obtain ⟨hfirst, hrest⟩ := List.pairwise_cons.mp hordered
    refine ih ?_ (fun q hq => hps q (List.mem_cons_of_mem _ hq)) hrest ?_
    · refine refersOnly_node nofun fun i c hc => ?_
      -- The children in turn: the source, the joined table, the outer key and the inner key.
      match i, hc with
      | 0, hc =>
        cases hc
        exact he.mono fun b hb => .inl hb
      | 1, hc =>
        cases hc
        exact hsound.inner.mono nofun
      | 2, hc =>
        cases hc
        refine hsound.outerKey.mono fun b hb => .inr (.outerKey ?_)
        rw [hanchor] at hb
        rcases hcarries b hb.1 with hb' | ⟨q, hq, rfl⟩
        · exact hb'
        · -- The join itself and those that wait behind it are not joined earlier.
          exfalso
          rcases List.mem_cons.mp hq with rfl | hq
          · exact Nat.lt_irrefl _ hb.2
          · exact Nat.lt_asymm hb.2 (hfirst q hq)
      | 3, hc =>
        cases hc
        exact hsound.innerKey.mono nofun
    · intro b hb
      rcases hcarries b hb with hb' | ⟨q, hq, rfl⟩
      · exact .inl hb'.outer
      · rcases List.mem_cons.mp hq with rfl | hq
        · exact .inl (carries_label _ _ _ _ _)
        · exact .inr ⟨q, hq, rfl⟩

/-- A root is its own anchor. -/
theorem gives_attach_root {i : Nat} {r : Expr} {x x' : Expansion} :
    (attach (.root i) e).Gives x r x' ↔
      r = attachAll e (x.pending.filter fun p => p.anchor == .root i) ∧
        x' = ⟨x.state, x.pending.filter fun p => !(p.anchor == .root i)⟩ := by
  unfold attach
  rw [gives_modifyGet, Prod.ext_iff]
  exact and_congr eq_comm eq_comm

/-- What becomes of an argument when the joins are attached. -/
def attached (pending : List PendingJoin) (e : Expr) : Option (Expr × SourceKey) → Expr
  | some (_, key) => attachAll e (pending.filter fun p => p.anchor == key)
  | none => e

/-- The keys of the sources among the arguments. -/
def sourceKeys (sources : List (Option (Expr × SourceKey))) : List SourceKey :=
  sources.filterMap fun s => s.map (·.2)

/-- If the sources have keys of their own, which are roots, then each gets all joins that wait for
it. -/
theorem attachSources_eq {pairs : List (Expr × Option (Expr × SourceKey))} {rs : List Expr}
    {x x' : Expansion} (hroots : ∀ key ∈ sourceKeys (pairs.map (·.2)), ∃ i, key = .root i)
    (hnodup : (sourceKeys (pairs.map (·.2))).Nodup)
    (h : (pairs.mapM fun a => attachSource a.1 a.2).Gives x rs x') :
    rs = pairs.map (fun a => attached x.pending a.1 a.2) ∧
      x'.state = x.state ∧
      x'.pending = x.pending.filter fun p => p.anchor ∉ sourceKeys (pairs.map (·.2)) := by
  induction pairs generalizing x rs with
  | nil =>
    obtain ⟨rfl, rfl⟩ := gives_mapM_nil.mp h
    simp [sourceKeys]
  | cons a pairs ih =>
    obtain ⟨e, source⟩ := a
    obtain ⟨r, t, rs', hr, hrs, rfl⟩ := gives_mapM_cons.mp h
    rcases source with _ | ⟨source, key⟩
    · obtain ⟨rfl, rfl⟩ := gives_pure.mp hr
      obtain ⟨rfl, hstate, hpending⟩ := ih hroots hnodup hrs
      exact ⟨rfl, hstate, hpending⟩
    · have hkeys : sourceKeys ((e, some (source, key)) :: pairs |>.map (·.2)) =
          key :: sourceKeys (pairs.map (·.2)) := rfl
      rw [hkeys] at hroots hnodup ⊢
      obtain ⟨hnew, hrest⟩ := List.nodup_cons.mp hnodup
      obtain ⟨i, rfl⟩ := hroots key List.mem_cons_self
      obtain ⟨rfl, rfl⟩ := gives_attach_root.mp hr
      obtain ⟨rfl, hstate, hpending⟩ :=
        ih (fun k hk => hroots k (List.mem_cons_of_mem _ hk)) hrest hrs
      -- What the first source took does not wait for any of the others.
      have hothers : ∀ b ∈ pairs, attached (x.pending.filter fun p => !(p.anchor == .root i))
          b.1 b.2 = attached x.pending b.1 b.2 := by
        intro b hb
        obtain ⟨e', _ | ⟨source', key'⟩⟩ := b
        · rfl
        · have hkey' : key' ∈ sourceKeys (pairs.map (·.2)) :=
            List.mem_filterMap.mpr ⟨some (source', key'), List.mem_map.mpr ⟨_, hb, rfl⟩, rfl⟩
          have hne : key' ≠ .root i := fun heq => hnew (heq ▸ hkey')
          refine congrArg (attachAll e') ?_
          rw [List.filter_filter]
          apply List.filter_congr
          intro p _
          by_cases hp : p.anchor = key'
          · simp [hp, hne]
          · simp [hp]
      refine ⟨?_, hstate, ?_⟩
      · rw [List.map_cons]
        exact congrArg₂ List.cons rfl (List.map_congr_left hothers)
      · rw [hpending, List.filter_filter]
        apply List.filter_congr
        intro p _
        by_cases hp : p.anchor = .root i
        · simp [hp]
        · simp [hp]

end Attach

/-- A row that is in scope is a parameter over a source in view, or it is a joined row. -/
theorem rowKey?_eq_some {Γ : Scope} {row : Expr} (hΓ : ScopeKeys V Γ)
    (h : rowKey? Γ row = some key) :
    (∀ a, ¬ row.HasJoin a) ∧
      (V key ∨ ∃ a entity, row = .sourceRef a entity ∧ key = .join a) := by
  unfold rowKey? at h
  split at h
  · rename_i p
    refine ⟨fun a => not_hasJoin_of_leaf rfl rfl, .inl ?_⟩
    unfold Scope.source? at h
    split at h
    · rename_i q source hfind
      split at h
      · exact hΓ _ (List.mem_of_find?_eq_some hfind) key h
      · cases h
    · cases h
  · rename_i b entity
    cases h
    exact ⟨fun a => not_hasJoin_of_leaf rfl rfl, .inr ⟨b, entity, rfl, rfl⟩⟩
  · cases h

/-- A join that starts from a source in view, or from a join below one, lies below a source in view. -/
theorem view_of_start {x : Expansion} (hx : Tidy x) (hV : ∀ key, V key → Known x.state key)
    (hkey : V key ∨ ∃ a, key = .join a ∧ InView V x.state a) (hknown : Known x.state anchor)
    (hstart : key = anchor ∨ ∃ a, key = .join a ∧ Anchored x.state a anchor) : V anchor := by
  rcases hkey with hkey | ⟨a, rfl, anchor', hanchor', ha'⟩
  · obtain ⟨i, -, rfl⟩ := hV key hkey
    rcases hstart with rfl | ⟨a, heq, -⟩
    · exact hkey
    · cases heq
  · obtain ⟨i, -, rfl⟩ := hknown
    rcases hstart with heq | ⟨b, heq, ha⟩
    · cases heq
    · cases heq
      rw [hx.anchor_unique ha ha']
      exact hanchor'

theorem refersOnly_expandCollection {model : Model} {declaring : Entity}
    {n : QueryLowering.Navigation} {owner node r : Expr} {R : Alias → Prop}
    (howner : owner.RefersOnly R) (h : expandCollection model owner declaring n node = .ok r) :
    r.RefersOnly R ∧ ∀ a, owner.HasJoin a → r.HasJoin a := by
  obtain ⟨tests, test, htest, htests, hcall⟩ := expandCollection_eq_ok h
  obtain ⟨op, type, -, -, rfl⟩ := callOperator_eq_ok hcall
  have hmember : ∀ (row : Expr) name type, row.RefersOnly R →
      (Expr.member row name type).RefersOnly R := fun row name type hrow =>
    refersOnly_of_not_isRelational rfl (List.forall_mem_singleton.mpr hrow)
  have hbinary : ∀ (op : BinaryOp) (left right : Expr), left.RefersOnly R → right.RefersOnly R →
      (Expr.binary op left right).RefersOnly R := fun op left right hleft hright =>
    refersOnly_of_not_isRelational rfl
      (List.forall_mem_cons.mpr ⟨hleft, List.forall_mem_singleton.mpr hright⟩)
  have hleaf : ∀ e : Expr, e.isRelational = false → e.children = [] → e.RefersOnly R := by
    intro e he hchildren
    refine refersOnly_of_not_isRelational he ?_
    rw [hchildren]
    exact List.forall_mem_nil _
  have htest' : ∀ t ∈ tests, t.RefersOnly R ∧ ∀ a, owner.HasJoin a → t.HasJoin a := by
    intro t ht
    obtain ⟨b, c, rfl⟩ := htests t ht
    refine ⟨hbinary _ _ _ (hmember _ _ _ (hleaf _ rfl rfl)) (hmember _ _ _ howner), fun a ha => ?_⟩
    have hright : (Expr.member owner c.name c.type).HasJoin a := ha.of_child (by simp [children])
    exact hright.of_child (by simp [children])
  -- The conjunction of the tests has what the tests have; there is at least one of them.
  have hall : test.RefersOnly R ∧ ∀ a, owner.HasJoin a → test.HasJoin a := by
    refine of_foldBinary? (fun left right hleft hright => ?_) htest' htest
    refine ⟨hbinary _ _ _ hleft.1 hright.1, fun a ha => ?_⟩
    exact (hleft.2 a ha).of_child (by simp [children])
  have hlambda : (Expr.lambda [⟨"e", .entity n.target⟩] test).RefersOnly R :=
    refersOnly_of_not_isRelational rfl (List.forall_mem_singleton.mpr hall.1)
  have hquote : (Expr.quote (.lambda [⟨"e", .entity n.target⟩] test)).RefersOnly R :=
    refersOnly_of_not_isRelational rfl (List.forall_mem_singleton.mpr hlambda)
  refine ⟨refersOnly_of_not_isRelational rfl ?_, fun a ha => ?_⟩
  · exact List.forall_mem_cons.mpr ⟨hleaf _ rfl rfl, List.forall_mem_singleton.mpr hquote⟩
  · have hlambda : (Expr.lambda [⟨"e", .entity n.target⟩] test).HasJoin a :=
      (hall.2 a ha).of_child (by simp [children])
    have hquote : (Expr.quote (.lambda [⟨"e", .entity n.target⟩] test)).HasJoin a :=
      hlambda.of_child (by simp [children])
    exact hquote.of_child (by simp [children])

/-- The expansion of a member of a row records at most one join, below a source in view. -/
theorem frame_expandMember {model : Model} {Γ : Scope} {row r : Expr} {name : String}
    {type : DataType} {x x' : Expansion} (hΓ : ScopeKeys V Γ)
    (hV : ∀ key, V key → Known x.state key) (hx : Tidy x)
    (hrow : row.RefersOnly (InView V x.state))
    (h : (expandMember model Γ row name type).Gives x r x') :
    Frame V r.HasJoin x x' ∧ r.RefersOnly (InView V x'.state) ∧
      ∀ a, row.HasJoin a → r.HasJoin a := by
  rcases expandMember_cases h with ⟨rfl, rfl⟩ | ⟨key, declaring, n, hkey, h⟩ |
    ⟨declaring, n, hcollection, rfl⟩
  · refine ⟨.refl hx, ?_, fun a ha => ha.of_child (by simp [children])⟩
    exact refersOnly_of_not_isRelational rfl (List.forall_mem_singleton.mpr hrow)
  · obtain ⟨hnojoin, hkey⟩ := rowKey?_eq_some hΓ hkey
    have hview : V key ∨ ∃ a, key = .join a ∧ InView V x.state a := by
      rcases hkey with hkey | ⟨a, entity, rfl, rfl⟩
      · exact .inl hkey
      · exact .inr ⟨a, rfl, hrow.sourceRef⟩
    have hlost : ∀ a, row.HasJoin a → r.HasJoin a := fun a ha => absurd ha (hnojoin a)
    have hreference : ∀ a entity, InView V x'.state a →
        (Expr.sourceRef a entity).RefersOnly (InView V x'.state) := by
      intro a entity ha
      refine refersOnly_of_children (fun b entity' heq => ?_) (List.forall_mem_nil _)
      cases heq
      exact ha
    rcases expandReference_cases h with ⟨j, hj, rfl, rfl⟩ | ⟨parts, hnone, hparts, rfl, rfl⟩
    · -- The navigation was followed from this row before.
      have hmem := mem_of_findJoin? hj
      have hanchor := view_of_start hx hV hview (hx.anchors _ hmem) (hx.starts _ hmem)
      exact ⟨.refl hx, hreference _ _ ⟨_, hanchor, _, hmem, rfl, rfl⟩, hlost⟩
    · -- The navigation is followed for the first time: its join is recorded, and waits.
      have hfits := fits_of_joinParts hparts
      have hanchor := view_of_start hx hV hview hfits.known hfits.start
      have hjoins := joins_addJoin parts hnone
      refine ⟨⟨hx.addJoin hnone hfits, grows_addJoin parts hnone, ?_, ?_⟩, ?_, hlost⟩
      · exact ⟨_, rfl, List.forall_mem_singleton.mpr hanchor⟩
      · intro e he
        rw [hjoins] at he
        rcases List.mem_append.mp he with he | he
        · exact .inl he
        · cases List.mem_singleton.mp he
          exact .inr (.inl ⟨hanchor, _, List.mem_append_right _ List.mem_cons_self, rfl, rfl⟩)
      · apply hreference
        refine ⟨_, hanchor, ((key, n.name), ⟨⟨x.state.nextAlias⟩, parts.target.name, parts.anchor,
          joinKind x.state key n⟩), ?_, rfl, rfl⟩
        rw [hjoins]
        exact List.mem_append_right _ List.mem_cons_self
  · obtain ⟨hrefers, hjoins⟩ := refersOnly_expandCollection hrow hcollection
    exact ⟨.refl hx, hrefers, hjoins⟩

end QueryLowering.Pass.Navigation
