import QueryLowering.Proofs.JoinFrames

/-!
The scopes of joins. While the lambdas of an operator are expanded, joins below its sources are
recorded and wait; when the operator is done they stand on the row spines of its sources, and all
references to them are inside its lambdas. What waits after an expansion are joins below sources that
were in view before. So after the expansion of a whole query nothing waits, every recorded join is in
the tree, and every joined row can be seen from where it is referred to.
-/

namespace QueryLowering.Pass.Navigation

open QueryLowering.Expr StateStep

variable {s s' : State} {a : Alias} {key : SourceKey} {V W : SourceKey → Prop}

/-- What the expansion of a tree gives if the sources in view are `V`: joins are in the tree or wait,
references are to joins in view or can be seen, and if the tree has rows of its own, then all joins
below their root are on its row spine. -/
structure Placement (V : SourceKey → Prop) (x : Expansion) (result : Expr × Option SourceKey)
    (x' : Expansion) : Prop where
  frame : Frame V result.1.HasJoin x x'
  refers : result.1.RefersOnly (InView V x'.state)
  sourced : ∀ key ∈ result.2, Sourced x.state x'.state result.1 key

/-- The expansion of the tree places all joins, from whatever state and in whatever scope. -/
def Placed (model : Model) (e : Expr) : Prop :=
  ∀ V Γ bound x result x', ScopeKeys V Γ → (∀ i, ∀ key ∈ bound i, V key) →
    (∀ key, V key → Known x.state key) → Tidy x → (expand model Γ bound e).Gives x result x' →
      Placement V x result x'

section Operator

variable {model : Model} {Γ : Scope} {e r : Expr} {x x' : Expansion}
  {source : Option (Expr × SourceKey)}

/-- What is known of an argument after the sources have been expanded: if it is one, then it has rows
of its own. -/
structure SourceArg (V : SourceKey → Prop) (s s' : State) (arg : Expr)
    (source : Option (Expr × SourceKey)) : Prop where
  isSome : source.isSome = (ArgShape.of arg).isSource
  refers : ∀ p ∈ source, p.1.RefersOnly (InView V s')
  sourced : ∀ p ∈ source, Sourced s s' p.1 p.2

theorem sourceArg_expandSource (hplaced : Placed model e) (hΓ : ScopeKeys V Γ)
    (hV : ∀ key, V key → Known x.state key) (hx : Tidy x)
    (h : (expandSource model Γ e).Gives x source x') :
    Frame V (fun l => ∃ p ∈ source, p.1.HasJoin l) x x' ∧
      SourceArg V x.state x'.state e source := by
  unfold expandSource at h
  split at h
  · rename_i hsource
    obtain ⟨⟨e', key?⟩, t, hp, h⟩ := gives_bind.mp h
    obtain ⟨q, t', hq, h⟩ := gives_bind.mp h
    obtain ⟨rfl, rfl⟩ := gives_pure.mp h
    have hplacement := hplaced V Γ _ x _ t hΓ Invariant.unbound hV hx hp
    have hframe : Frame V (fun l => ∃ p ∈ some (e', q.2), p.1.HasJoin l) x t :=
      hplacement.frame.mono (fun _ hV => hV) fun l hl => ⟨_, rfl, hl⟩
    -- A source without a root gets one now.
    cases key? with
    | none =>
      obtain ⟨key, u, hroot, hq⟩ := gives_bind.mp hq
      obtain ⟨rfl, rfl⟩ := gives_pure.mp hq
      obtain ⟨rfl, rfl⟩ := Invariant.gives_addRoot hroot
      refine ⟨hframe.trans (.addRoot hplacement.frame.tidy _), hsource.symm, ?_, ?_⟩
      · intro p hp
        cases hp
        exact hplacement.refers.mono fun a ha => ha.mono (.addRoot _ _)
      · intro p hp
        cases hp
        exact .addRoot hplacement.frame.tidy hplacement.frame.grows _ _
    | some key =>
      obtain ⟨rfl, rfl⟩ := gives_pure.mp hq
      refine ⟨hframe, hsource.symm, ?_, ?_⟩
      · intro p hp
        cases hp
        exact hplacement.refers
      · intro p hp
        cases hp
        exact hplacement.sourced key rfl
  · rename_i hvalue
    obtain ⟨rfl, rfl⟩ := gives_pure.mp h
    refine ⟨.refl hx, ?_, nofun, nofun⟩
    exact (Bool.eq_false_iff.mpr hvalue).symm

/-- The expansion of the other arguments leaves a source as it is: its root is not in view. -/
theorem SourceArg.later {t : Expansion} {L : Alias → Prop} (h : SourceArg V s t.state e source)
    (hV : ∀ key, V key → Known s key) (hframe : Frame V L t x') :
    SourceArg V s x'.state e source := by
  refine ⟨h.isSome, fun p hp => ?_, fun p hp => ?_⟩
  · exact (h.refers p hp).mono fun a ha => ha.mono hframe.grows
  · have hsourced := h.sourced p hp
    exact hsourced.later hframe fun hkey => (hV _ hkey).not_fresh hsourced.fresh

theorem SourceArg.earlier {s₀ : State} (h : SourceArg V s s' e source) (hgrows : Grows s₀ s) :
    SourceArg V s₀ s' e source :=
  ⟨h.isSome, h.refers, fun p hp => (h.sourced p hp).earlier hgrows⟩

theorem mem_sourceKeys {sources : List (Option (Expr × SourceKey))} :
    key ∈ sourceKeys sources ↔ ∃ e, some (e, key) ∈ sources := by
  unfold sourceKeys
  rw [List.mem_filterMap]
  constructor
  · rintro ⟨source, hsource, hkey⟩
    obtain ⟨⟨e, k⟩, rfl, rfl⟩ := Option.map_eq_some_iff.mp hkey
    exact ⟨e, hsource⟩
  · rintro ⟨e, he⟩
    exact ⟨some (e, key), he, rfl⟩

/-- The sources of an operator get roots one after the other, so no two get the same. -/
theorem sourceArgs_mapM {args : List Expr} {sources : List (Option (Expr × SourceKey))}
    (hplaced : ∀ a ∈ args, Placed model a) (hΓ : ScopeKeys V Γ)
    (hV : ∀ key, V key → Known x.state key) (hx : Tidy x)
    (h : (args.mapM (expandSource model Γ)).Gives x sources x') :
    Frame V (fun l => ∃ source ∈ sources, ∃ p ∈ source, p.1.HasJoin l) x x' ∧
      List.Forall₂ (SourceArg V x.state x'.state) args sources ∧ (sourceKeys sources).Nodup := by
  induction args generalizing x sources with
  | nil =>
    obtain ⟨rfl, rfl⟩ := gives_mapM_nil.mp h
    exact ⟨.refl hx, .nil, .nil⟩
  | cons a args ih =>
    obtain ⟨source, t, sources', ha, hargs, rfl⟩ := gives_mapM_cons.mp h
    obtain ⟨hframe, hsource⟩ :=
      sourceArg_expandSource (hplaced a List.mem_cons_self) hΓ hV hx ha
    obtain ⟨hframe', hsources, hnodup⟩ := ih (fun b hb => hplaced b (List.mem_cons_of_mem _ hb))
      (fun key hkey => (hV key hkey).mono hframe.grows) hframe.tidy hargs
    refine ⟨?_, .cons (hsource.later hV hframe') ?_, ?_⟩
    · refine (hframe.mono (fun _ hV => hV) ?_).trans (hframe'.mono (fun _ hV => hV) ?_)
      · exact fun l hl => ⟨source, List.mem_cons_self, hl⟩
      · rintro l ⟨source', hsource', hl⟩
        exact ⟨source', List.mem_cons_of_mem _ hsource', hl⟩
    · exact hsources.imp fun _ _ hs => hs.earlier hframe.grows
    · cases source with
      | none => exact hnodup
      | some p =>
        refine List.nodup_cons.mpr ⟨fun hkey => ?_, hnodup⟩
        obtain ⟨e, he⟩ := mem_sourceKeys.mp hkey
        -- The root of the first source is registered before those of the others.
        have hfresh : Fresh t.state p.2 :=
          forall_mem_of_forall₂ (P := fun q => ∀ p ∈ q, Fresh t.state p.2) hsources
            (fun _ _ _ hs p hp => (hs.sourced p hp).fresh) _ he _ rfl
        exact (hsource.sourced p rfl).known.not_fresh hfresh

/-- What is known of an argument before joins are attached: it is a source, or a lambda that may refer
to joins below the sources, or it has nothing to do with them. -/
def ArgView (V W : SourceKey → Prop) (s : State) (source : Option (Expr × SourceKey))
    (arg : Expr) : Prop :=
  (∀ p ∈ source, arg = p.1 ∧ arg.RefersOnly (InView V s)) ∧
    (source = none → arg.RefersOnly (InView V s) ∨
      (arg.lambda?.isSome = true ∧ arg.RefersOnly (InView W s)))

theorem ArgView.mono (h : ArgView V W s source e) (hgrows : Grows s s') :
    ArgView V W s' source e := by
  refine ⟨fun p hp => ?_, fun hnone => ?_⟩
  · exact (h.1 p hp).imp_right fun hrefers => hrefers.mono fun a ha => ha.mono hgrows
  · rcases h.2 hnone with hrefers | ⟨hlambda, hrefers⟩
    · exact .inl (hrefers.mono fun a ha => ha.mono hgrows)
    · exact .inr ⟨hlambda, hrefers.mono fun a ha => ha.mono hgrows⟩

theorem lambda?_expand {bound : Nat → Option SourceKey} {result : Expr × Option SourceKey}
    (he : e.lambda?.isSome = true) (h : (expand model Γ bound e).Gives x result x') :
    result.1.lambda?.isSome = true := by
  have hlambda : ∀ params body result x', (expand model Γ bound (.lambda params body)).Gives x
      result x' → ∃ body', result.1 = .lambda params body' := by
    intro params body result x' h
    rw [expand] at h
    obtain ⟨p, t, -, h⟩ := gives_bind.mp h
    obtain ⟨rfl, -⟩ := gives_pure.mp h
    exact ⟨p.1, rfl⟩
  unfold lambda? at he
  split at he
  · obtain ⟨body', heq⟩ := hlambda _ _ _ _ h
    rw [heq]
    rfl
  · rw [expand] at h
    obtain ⟨p, t, hp, h⟩ := gives_bind.mp h
    obtain ⟨rfl, -⟩ := gives_pure.mp h
    obtain ⟨body', heq⟩ := hlambda _ _ _ _ hp
    rw [heq]
    rfl
  · cases he

theorem argSources_of_not_lambda (operator : String) (keys : List SourceKey) (i : Nat)
    (he : e.lambda?.isSome = false) : argSources operator keys i e = fun _ => none := by
  unfold argSources ArgShape.of
  cases e with
  | quote inner => cases inner <;> first | rfl | cases he
  | lambda => cases he
  | _ => grind

theorem argView_expandArg {operator : String} {keys : List SourceKey} {i : Nat}
    (hplaced : Placed model e) (hΓ : ScopeKeys V Γ) (hV : ∀ key, V key → Known x.state key)
    (hkeys : ∀ key ∈ keys, Known x.state key) (hx : Tidy x)
    (hsource : ∀ p ∈ source, p.1.RefersOnly (InView V x.state))
    (h : (expandArg model Γ operator keys i e source).Gives x r x') :
    Frame (fun key => V key ∨ key ∈ keys) r.HasJoin x x' ∧
      ArgView V (fun key => V key ∨ key ∈ keys) x'.state source r := by
  rcases source with _ | ⟨source, key⟩
  · obtain ⟨p, t, hp, h⟩ := gives_bind.mp h
    obtain ⟨rfl, rfl⟩ := gives_pure.mp h
    -- Only a lambda gets the sources in view.
    cases hlambda : e.lambda?.isSome with
    | true =>
      have hplacement := hplaced (fun key => V key ∨ key ∈ keys) Γ _ x p x'
        (fun b hb key hkey => .inl (hΓ b hb key hkey))
        (Invariant.scopeKeys_argSources fun key hkey => .inr hkey)
        (fun key hkey => hkey.elim (hV key) (hkeys key)) hx hp
      exact ⟨hplacement.frame, nofun,
        fun _ => .inr ⟨lambda?_expand hlambda hp, hplacement.refers⟩⟩
    | false =>
      rw [argSources_of_not_lambda _ _ _ hlambda] at hp
      have hplacement := hplaced V Γ _ x p x' hΓ Invariant.unbound hV hx hp
      exact ⟨hplacement.frame.mono (fun _ => .inl) fun _ hl => hl, nofun,
        fun _ => .inl hplacement.refers⟩
  · obtain ⟨rfl, rfl⟩ := gives_pure.mp h
    refine ⟨.refl hx, fun p hp => ?_, nofun⟩
    cases hp
    exact ⟨rfl, hsource _ rfl⟩

/-- What waits for a source when the other arguments have been expanded, together with the joins it
already has, are all joins below its root. -/
theorem carries_or_pending {t : Expansion} {L : Alias → Prop} {p : Expr × SourceKey}
    (hsourced : Sourced s t.state p.1 p.2) (hframe : Frame W L t x')
    (ha : Anchored x'.state a p.2) :
    p.1.Carries a ∨ ∃ q ∈ x'.pending.filter fun q => q.anchor == p.2, q.label.row = a := by
  obtain ⟨e, he, rfl, hanchor⟩ := ha
  rcases hframe.joins e he with he | ⟨-, q, hq, hrow, hq'⟩ | ⟨hfresh, -⟩
  · exact .inl (hsourced.carries _ ⟨e, he, rfl, hanchor⟩)
  · refine .inr ⟨q, List.mem_filter.mpr ⟨hq, ?_⟩, hrow⟩
    rw [hq', hanchor]
    exact beq_self_eq_true _
  · rw [hanchor] at hfresh
    exact absurd hfresh hsourced.known.not_fresh

theorem hasJoin_attached {pending : List PendingJoin} (h : e.HasJoin a) :
    (attached pending e source).HasJoin a := by
  cases source with
  | none => exact h
  | some p => exact hasJoin_attachAll h

/-- What an operator has before joins are attached: its sources were expanded between `x` and `t`, and
its other arguments, with the sources in view, between `t` and `t'`. -/
structure Ready (V : SourceKey → Prop) (x t t' : Expansion)
    (sources : List (Option (Expr × SourceKey))) (args : List Expr) : Prop where
  known : ∀ key, V key → Known x.state key
  tidy : Tidy x
  first : Frame V (fun l => ∃ source ∈ sources, ∃ p ∈ source, p.1.HasJoin l) x t
  sourced : ∀ p, some p ∈ sources → Sourced x.state t.state p.1 p.2
  distinct : (sourceKeys sources).Nodup
  second : Frame (fun key => V key ∨ key ∈ sourceKeys sources) (fun l => ∃ b ∈ args, b.HasJoin l)
    t t'
  views : List.Forall₂ (ArgView V (fun key => V key ∨ key ∈ sourceKeys sources) t'.state)
    sources args

namespace Ready

variable {t t' : Expansion} {sources : List (Option (Expr × SourceKey))} {args args' : List Expr}
  (hready : Ready V x t t' sources args)
include hready

theorem fresh (hkey : key ∈ sourceKeys sources) : Fresh x.state key := by
  obtain ⟨e, he⟩ := mem_sourceKeys.mp hkey
  exact (hready.sourced _ he).fresh

/-- No source of the operator was in view before. -/
theorem not_mem_sourceKeys (hkey : Known x.state key) : key ∉ sourceKeys sources :=
  fun hmem => hkey.not_fresh (hready.fresh hmem)

theorem attach (h : ((args.zip sources).mapM fun a => attachSource a.1 a.2).Gives t' args' x') :
    args' = (args.zip sources).map (fun a => attached t'.pending a.1 a.2) ∧
      x' = { t' with pending := t'.pending.filter fun p => p.anchor ∉ sourceKeys sources } := by
  have hsnd : (args.zip sources).map (·.2) = sources :=
    List.map_snd_zip hready.views.length_eq.le
  have hroots : ∀ key ∈ sourceKeys ((args.zip sources).map (·.2)), ∃ i, key = .root i := by
    intro key hkey
    rw [hsnd] at hkey
    obtain ⟨i, -, rfl⟩ := hready.fresh hkey
    exact ⟨i, rfl⟩
  have hdistinct : (sourceKeys ((args.zip sources).map (·.2))).Nodup := by
    rw [hsnd]
    exact hready.distinct
  obtain ⟨hargs, hstate, hpending⟩ := attachSources_eq hroots hdistinct h
  rw [hsnd] at hpending
  refine ⟨hargs, ?_⟩
  rw [← hstate, ← hpending]

/-- The argument at a position, before and after joins are attached. -/
theorem argument {i : Nat} (hsource : sources[i]? = some source) :
    ∃ b, args[i]? = some b ∧
      ((args.zip sources).map fun a => attached t'.pending a.1 a.2)[i]? =
        some (attached t'.pending b source) ∧
      ArgView V (fun key => V key ∨ key ∈ sourceKeys sources) t'.state source b := by
  have hi : i < args.length := by
    rw [← hready.views.length_eq]
    exact (List.getElem?_eq_some_iff.mp hsource).1
  have hb : args[i]? = some args[i] := List.getElem?_eq_getElem hi
  have hpair : (args.zip sources)[i]? = some (args[i], source) :=
    List.getElem?_zip_eq_some.mpr ⟨hb, hsource⟩
  have hpair' : (sources.zip args)[i]? = some (source, args[i]) :=
    List.getElem?_zip_eq_some.mpr ⟨hsource, hb⟩
  refine ⟨args[i], hb, ?_, (List.forall₂_iff_zip.mp hready.views).2 (List.mem_of_getElem? hpair')⟩
  rw [List.getElem?_map, hpair]
  rfl

/-- All joins below the root of a source have been put around it. -/
theorem carries_attached {p : Expr × SourceKey} (hp : some p ∈ sources)
    (ha : Anchored t'.state a p.2) : (attached t'.pending p.1 (some p)).Carries a := by
  rcases carries_or_pending (hready.sourced p hp) hready.second ha with ha | ⟨q, hq, rfl⟩
  · exact carries_attachAll ha
  · exact carries_attachAll_of_mem hq

theorem sourced_attached {p : Expr × SourceKey} (hp : some p ∈ sources) :
    Sourced x.state t'.state (attached t'.pending p.1 (some p)) p.2 :=
  ⟨(hready.sourced p hp).fresh, (hready.sourced p hp).known.mono hready.second.grows,
    fun _ ha => hready.carries_attached hp ha⟩

theorem refers_attached {p : Expr × SourceKey} (hp : some p ∈ sources) :
    (attached t'.pending p.1 (some p)).RefersOnly (InView V t'.state) := by
  obtain ⟨i, hi⟩ := List.mem_iff_getElem?.mp hp
  obtain ⟨b, -, -, hview, -⟩ := hready.argument hi
  obtain ⟨rfl, hrefers⟩ := hview p rfl
  have hpending : ∀ q ∈ t'.pending.filter fun q => q.anchor == p.2,
      q.Sound t'.state ∧ q.anchor = p.2 := by
    intro q hq
    obtain ⟨hq, hanchor⟩ := List.mem_filter.mp hq
    exact ⟨hready.second.tidy.pending q hq, by simpa using hanchor⟩
  apply refersOnly_attachAll hrefers hpending (hready.second.tidy.ordered.filter _)
  exact fun a ha => carries_or_pending (hready.sourced p hp) hready.second ha

/-- A join that has been made is around a source or in an argument, or it still waits. -/
theorem frame_attached :
    Frame V
      (fun l => ∃ b ∈ (args.zip sources).map fun a => attached t'.pending a.1 a.2, b.HasJoin l)
      x { t' with pending := t'.pending.filter fun p => p.anchor ∉ sourceKeys sources } := by
  have hplaced : ∀ (i : Nat) source b l, sources[i]? = some source → args[i]? = some b →
      (attached t'.pending b source).HasJoin l →
        ∃ b ∈ (args.zip sources).map fun a => attached t'.pending a.1 a.2, b.HasJoin l := by
    intro i source b l hsource hb hl
    obtain ⟨b', hb', hmem, -⟩ := hready.argument hsource
    rw [hb] at hb'
    cases hb'
    exact ⟨_, List.mem_of_getElem? hmem, hl⟩
  refine ⟨hready.second.tidy.filter _, hready.first.grows.trans hready.second.grows, ?_, ?_⟩
  · obtain ⟨new, hnew, hanchors⟩ := hready.first.pending
    obtain ⟨new', hnew', hanchors'⟩ := hready.second.pending
    refine ⟨new ++ new'.filter fun p => p.anchor ∉ sourceKeys sources, ?_, ?_⟩
    · -- Nothing that waited before the other arguments were expanded waits for the new sources.
      have hold : (x.pending ++ new).filter (fun p => p.anchor ∉ sourceKeys sources) =
          x.pending ++ new := by
        refine List.filter_eq_self.mpr fun p hp => decide_eq_true ?_
        apply hready.not_mem_sourceKeys
        rcases List.mem_append.mp hp with hp | hp
        · exact hready.tidy.known_of_pending hp
        · exact hready.known _ (hanchors p hp)
      rw [hnew', hnew, List.filter_append, hold, List.append_assoc]
    · refine List.forall_mem_append.mpr ⟨hanchors, fun p hp => ?_⟩
      obtain ⟨hp, hkey⟩ := List.mem_filter.mp hp
      exact (hanchors' p hp).resolve_right (of_decide_eq_true hkey)
  · have hwaits : ∀ e : (SourceKey × String) × Join, V e.2.anchor →
        (∃ p ∈ t'.pending, p.label.row = e.2.row ∧ p.anchor = e.2.anchor) →
        ∃ p ∈ t'.pending.filter fun p => p.anchor ∉ sourceKeys sources,
          p.label.row = e.2.row ∧ p.anchor = e.2.anchor := by
      rintro e hV ⟨p, hp, hrow, hanchor⟩
      refine ⟨p, List.mem_filter.mpr ⟨hp, decide_eq_true ?_⟩, hrow, hanchor⟩
      rw [hanchor]
      exact hready.not_mem_sourceKeys (hready.known _ hV)
    intro e he
    rcases hready.second.joins e he with he | ⟨hV | hkey, hp⟩ | ⟨hfresh, b, hb, hl⟩
    · rcases hready.first.joins e he with he | ⟨hV, p, hp, hrow⟩ |
        ⟨hfresh, source, hsource, p, rfl, hl⟩
      · exact .inl he
      · exact .inr (.inl ⟨hV, hwaits e hV ⟨p, hready.second.mem_pending hp, hrow⟩⟩)
      · obtain ⟨i, hi⟩ := List.mem_iff_getElem?.mp hsource
        obtain ⟨b, hb, -, hview, -⟩ := hready.argument hi
        obtain ⟨rfl, -⟩ := hview p rfl
        exact .inr (.inr ⟨hfresh, hplaced i _ _ _ hi hb (hasJoin_attached hl)⟩)
    · exact .inr (.inl ⟨hV, hwaits e hV hp⟩)
    · -- A join below one of the sources no longer waits: it is around that source.
      obtain ⟨source, hsource⟩ := mem_sourceKeys.mp hkey
      obtain ⟨i, hi⟩ := List.mem_iff_getElem?.mp hsource
      obtain ⟨b, hb, -, hview, -⟩ := hready.argument hi
      obtain ⟨rfl, -⟩ := hview _ rfl
      have hcarries := hready.carries_attached hsource ⟨e, he, rfl, rfl⟩
      exact .inr (.inr ⟨hready.fresh hkey, hplaced i _ _ _ hi hb hcarries.hasJoin⟩)
    · obtain ⟨i, hi⟩ := List.mem_iff_getElem?.mp hb
      have hlt : i < sources.length := by
        rw [hready.views.length_eq]
        exact (List.getElem?_eq_some_iff.mp hi).1
      exact .inr (.inr ⟨hfresh.anti hready.first.grows,
        hplaced i _ _ _ (List.getElem?_eq_getElem hlt) hi (hasJoin_attached hl)⟩)

/-- The first argument of an operator is a source. -/
theorem exists_first {op : Operator} (hop : op ∈ Operator.all)
    (hkinds : List.Forall₂ (fun want source => want.isSource = source.isSome) op.params sources) :
    ∃ p, some p ∈ sources ∧ (sourceKeys sources).head? = some p.2 ∧
      ∃ rest, ((args.zip sources).map fun a => attached t'.pending a.1 a.2) =
        attached t'.pending p.1 (some p) :: rest := by
  obtain ⟨want, wants, hparams, hwant⟩ := Operator.exists_source_param hop
  rw [hparams] at hkinds
  cases hkinds with
  | cons hkind _ =>
    rw [hwant] at hkind
    obtain ⟨p, rfl⟩ := Option.isSome_iff_exists.mp hkind.symm
    have hviews := hready.views
    cases hviews with
    | cons hview _ =>
      obtain ⟨rfl, -⟩ := hview.1 p rfl
      exact ⟨p, List.mem_cons_self, rfl, _, rfl⟩

/-- An operator call lets its lambdas see all joins below its sources. -/
theorem refers_call {op : Operator} {m : Method} {type : DataType}
    (hop : op.IsCalled m ((args.zip sources).map fun a => attached t'.pending a.1 a.2))
    (hkinds : List.Forall₂ (fun want source => want.isSource = source.isSome) op.params sources) :
    (Expr.call m none ((args.zip sources).map fun a => attached t'.pending a.1 a.2) type).RefersOnly
      (InView V t'.state) := by
  refine refersOnly_node nofun fun i c hc => ?_
  have hi : ((args.zip sources).map fun a => attached t'.pending a.1 a.2)[i]? = some c := hc
  rw [List.getElem?_map, Option.map_eq_some_iff] at hi
  obtain ⟨⟨b, source⟩, hpair, rfl⟩ := hi
  obtain ⟨hb, hsource⟩ := List.getElem?_zip_eq_some.mp hpair
  obtain ⟨b', hb', -, hview⟩ := hready.argument hsource
  cases hb.symm.trans hb'
  cases source with
  | some p =>
    obtain ⟨rfl, -⟩ := hview.1 p rfl
    have hrefers := hready.refers_attached (List.mem_of_getElem? hsource)
    exact hrefers.mono fun a ha => .inl ha
  | none =>
    rcases hview.2 rfl with hrefers | ⟨hlambda, hrefers⟩
    · exact hrefers.mono fun a ha => .inl ha
    · refine hrefers.mono fun a ha => ?_
      obtain ⟨anchor, hV | hkey, ha⟩ := ha
      · exact .inl ⟨anchor, hV, ha⟩
      · -- The join is around the source with this root, which is another argument of the operator.
        obtain ⟨e, he⟩ := mem_sourceKeys.mp hkey
        obtain ⟨j, hj⟩ := List.mem_iff_getElem?.mp he
        obtain ⟨e', -, hsource', hview', -⟩ := hready.argument hj
        obtain ⟨rfl, -⟩ := hview' _ rfl
        obtain ⟨want, hwant, hkind⟩ := exists_getElem?_of_forall₂ hkinds hj
        exact .inr (.argument hop hc hlambda hwant hkind hsource' (hready.carries_attached he ha))

end Ready

/-- The operator gives its source as it is, or it is put together from the new arguments and has the
rows of its source, rows of its own or no rows. -/
theorem result_of_rebuild {name : String} {args : List Expr} {first : Option SourceKey}
    {result : Expr × Option SourceKey} (h : (rebuild e name args first).Gives x result x') :
    (name = "AsQueryable" ∧ args.head? = some result.1 ∧ result.2 = first ∧ x' = x) ∨
      (args.length = e.children.length ∧ result.1 = e.setChildren args ∧
        ((name ∈ Operator.rowPreserving ∧ result.2 = first ∧ x' = x) ∨
          (∃ element, result.2 = some (.root x.state.roots.length) ∧
            x' = { x with state := (x.state.addRoot element).2 }) ∨
          (result.2 = none ∧ x' = x))) := by
  -- Whatever is not a mere conversion is put together in the same way.
  have hfinish : (rebuild.finish e name args first).Gives x result x' →
      args.length = e.children.length ∧ result.1 = e.setChildren args ∧
        ((name ∈ Operator.rowPreserving ∧ result.2 = first ∧ x' = x) ∨
          (∃ element, result.2 = some (.root x.state.roots.length) ∧
            x' = { x with state := (x.state.addRoot element).2 }) ∨
          (result.2 = none ∧ x' = x)) := by
    intro h
    unfold rebuild.finish at h
    obtain ⟨node, t, hnode, h⟩ := gives_bind.mp h
    obtain ⟨hchildren, rfl⟩ := gives_ofExcept.mp hnode
    obtain ⟨hlength, rfl⟩ := withChildren_eq_ok.mp hchildren
    obtain ⟨key, t, hkey, h⟩ := gives_bind.mp h
    obtain ⟨rfl, rfl⟩ := gives_pure.mp h
    refine ⟨hlength, rfl, ?_⟩
    unfold resultKey at hkey
    split at hkey
    · rename_i hname
      obtain ⟨rfl, rfl⟩ := gives_pure.mp hkey
      exact .inl ⟨hname, rfl, rfl⟩
    · split at hkey
      · obtain ⟨root, hroot, rfl⟩ := gives_map.mp hkey
        obtain ⟨rfl, rfl⟩ := Invariant.gives_addRoot hroot
        exact .inr (.inl ⟨_, rfl, rfl⟩)
      · obtain ⟨rfl, rfl⟩ := gives_pure.mp hkey
        exact .inr (.inr ⟨rfl, rfl⟩)
  unfold rebuild at h
  split at h
  · split at h
    · rename_i hname
      obtain ⟨rfl, rfl⟩ := gives_pure.mp h
      exact .inl ⟨hname.1, rfl, rfl, rfl⟩
    · exact .inr (hfinish h)
  · exact .inr (hfinish h)

/-- What is rebuilt from the arguments of an operator places all joins. -/
theorem Ready.placement {t t' : Expansion} {sources : List (Option (Expr × SourceKey))}
    {args args' : List Expr} (hready : Ready V x t t' sources args') {op : Operator} {m : Method}
    {receiver : Option Expr} {type : DataType} {result : Expr × Option SourceKey}
    (hcalled : op.IsCalled m args)
    (hkinds : List.Forall₂ (fun want source => want.isSource = source.isSome) op.params sources)
    (h : (rebuild (.call m receiver args type) m.name
      ((args'.zip sources).map fun a => attached t'.pending a.1 a.2)
      (sourceKeys sources).head?).Gives
        { t' with pending := t'.pending.filter fun p => p.anchor ∉ sourceKeys sources } result x') :
    Placement V x result x' := by
  have hframe := hready.frame_attached
  obtain ⟨p, hp, hhead, rest, hargs⟩ := hready.exists_first hcalled.mem hkinds
  have hsourced := hready.sourced_attached hp
  have hlength : ((args'.zip sources).map fun a => attached t'.pending a.1 a.2).length =
      op.params.length := by
    rw [List.length_map, List.length_zip, ← hready.views.length_eq, hkinds.length_eq, Nat.min_self]
  rw [hhead] at h
  rcases result_of_rebuild h with ⟨hname, hsource, hkey, rfl⟩ | ⟨hchildren, hnode, hkey⟩
  · -- The operator is a conversion with one argument, which is all that is left of it.
    have hone : op.params.length = 1 :=
      Operator.length_params_of_asQueryable hcalled.mem (hcalled.name_eq.trans hname)
    rw [hone, hargs] at hlength
    have hrest : rest = [] := List.length_eq_zero_iff.mp (Nat.succ.inj hlength)
    rw [hargs, hrest] at hframe hsource
    have hresult : result.1 = attached t'.pending p.1 (some p) := (Option.some.inj hsource).symm
    refine ⟨hframe.mono (fun _ hV => hV) ?_, ?_, ?_⟩
    · rintro l ⟨b, hb, hl⟩
      rw [hresult, ← List.mem_singleton.mp hb]
      exact hl
    · rw [hresult]
      exact hready.refers_attached hp
    · intro key hk
      rw [hkey] at hk
      cases hk
      rw [hresult]
      exact hsourced
  · -- There are as many new arguments as old ones, so there is no receiver.
    have hreceiver : receiver = none := by
      rw [hlength, hcalled.arity] at hchildren
      cases receiver with
      | none => rfl
      | some receiver => simp [children] at hchildren
    subst hreceiver
    have hnode : result.1 =
        .call m none ((args'.zip sources).map fun a => attached t'.pending a.1 a.2) type := hnode
    have hcalled' : op.IsCalled m ((args'.zip sources).map fun a => attached t'.pending a.1 a.2) :=
      ⟨hcalled.mem, hcalled.named, hlength.symm⟩
    have hrefers : result.1.RefersOnly (InView V t'.state) := by
      rw [hnode]
      exact hready.refers_call hcalled' hkinds
    have hframe : Frame V result.1.HasJoin x
        { t' with pending := t'.pending.filter fun p => p.anchor ∉ sourceKeys sources } := by
      refine hframe.mono (fun _ hV => hV) ?_
      rintro l ⟨b, hb, hl⟩
      rw [hnode]
      exact hl.of_child hb
    rcases hkey with ⟨hname, hkey, rfl⟩ | ⟨element, hkey, rfl⟩ | ⟨hkey, rfl⟩
    · -- The rows are those of the source, so the row spine goes on through the operator.
      refine ⟨hframe, hrefers, fun key hk => ?_⟩
      rw [hkey] at hk
      cases hk
      refine ⟨hsourced.fresh, hsourced.known, fun a ha => ?_⟩
      rw [hnode]
      rw [hargs] at hcalled' ⊢
      exact (hsourced.carries a ha).source hcalled' hname
    · -- The rows are new, and nothing is below their root yet.
      refine ⟨hframe.trans (.addRoot hframe.tidy element), ?_, fun key hk => ?_⟩
      · exact hrefers.mono fun a ha => ha.mono (.addRoot _ _)
      · rw [hkey] at hk
        cases hk
        exact .addRoot hframe.tidy hframe.grows _ _
    · refine ⟨hframe, hrefers, fun key hk => ?_⟩
      rw [hkey] at hk
      cases hk

/-- The sources of an operator are expanded first, and then its other arguments. -/
theorem ready_operator {args args' : List Expr} {t t' : Expansion} {name : String}
    {sources : List (Option (Expr × SourceKey))} (hplaced : ∀ a ∈ args, Placed model a)
    (hΓ : ScopeKeys V Γ) (hV : ∀ key, V key → Known x.state key) (hx : Tidy x)
    (hsources : (args.mapM (expandSource model Γ)).Gives x sources t)
    (hargs : ((args.zip sources).zipIdx.mapM fun a =>
      expandArg model Γ name (sourceKeys sources) a.2 a.1.1 a.1.2).Gives t args' t') :
    Ready V x t t' sources args' ∧
      List.Forall₂ (fun a source => source.isSome = (ArgShape.of a).isSource) args sources := by
  obtain ⟨hfirst, hsources, hdistinct⟩ := sourceArgs_mapM hplaced hΓ hV hx hsources
  have hsource : ∀ source ∈ sources, ∃ a, SourceArg V x.state t.state a source :=
    forall_mem_of_forall₂ hsources fun a _ source hs => ⟨a, hs⟩
  have hsourced : ∀ p, some p ∈ sources → Sourced x.state t.state p.1 p.2 := by
    intro p hp
    obtain ⟨a, ha⟩ := hsource _ hp
    exact ha.sourced p rfl
  have hknown : ∀ key ∈ sourceKeys sources, Known t.state key := by
    intro key hkey
    obtain ⟨e, he⟩ := mem_sourceKeys.mp hkey
    exact (hsourced _ he).known
  -- The other arguments see what the sources supply as well.
  obtain ⟨hsecond, hviews⟩ := Frame.mapM (V := fun key => V key ∨ key ∈ sourceKeys sources)
    (N := HasJoin)
    (R := fun s (a : (Expr × Option (Expr × SourceKey)) × Nat) b =>
      ArgView V (fun key => V key ∨ key ∈ sourceKeys sources) s a.1.2 b)
    (fun u u' _ a b _ hframe hview => hview.mono hframe.grows)
    (fun a ha u b u' hgrows hu hb => by
      obtain ⟨harg, hsource'⟩ := List.of_mem_zip (List.fst_mem_of_mem_zipIdx ha)
      obtain ⟨arg, hsource'⟩ := hsource _ hsource'
      exact argView_expandArg (hplaced _ harg) hΓ
        (fun key hkey => ((hV key hkey).mono hfirst.grows).mono hgrows)
        (fun key hkey => (hknown key hkey).mono hgrows) hu
        (fun p hp => (hsource'.refers p hp).mono fun l hl => hl.mono hgrows) hb)
    hfirst.tidy hargs
  refine ⟨⟨hV, hx, hfirst, hsourced, hdistinct, hsecond, ?_⟩, hsources.imp fun _ _ hs => hs.isSome⟩
  have hmap : (args.zip sources).zipIdx.map (Prod.snd ∘ Prod.fst) = sources := by
    rw [← List.map_map, List.zipIdx_map_fst]
    exact List.map_snd_zip hsources.length_eq.ge
  have hviews : List.Forall₂ (ArgView V (fun key => V key ∨ key ∈ sourceKeys sources) t'.state)
      ((args.zip sources).zipIdx.map (Prod.snd ∘ Prod.fst)) args' :=
    List.forall₂_map_left_iff.mpr hviews
  rw [hmap] at hviews
  exact hviews

/-- An operator call places all joins, if its arguments do. -/
theorem placement_operator {m : Method} {receiver : Option Expr} {args : List Expr}
    {type : DataType} {bound : Nat → Option SourceKey} {result : Expr × Option SourceKey}
    (hop : (Operator.findFor? m args).isSome = true) (hplaced : ∀ a ∈ args, Placed model a)
    (hΓ : ScopeKeys V Γ) (hV : ∀ key, V key → Known x.state key) (hx : Tidy x)
    (h : (expand model Γ bound (.call m receiver args type)).Gives x result x') :
    Placement V x result x' := by
  rw [expand_operator hop] at h
  obtain ⟨sources, t, hsources, h⟩ := gives_bind.mp h
  obtain ⟨args', t', hargs', h⟩ := gives_bind.mp h
  obtain ⟨args'', t'', hargs'', h⟩ := gives_bind.mp h
  obtain ⟨hready, hshapes⟩ := ready_operator hplaced hΓ hV hx hsources hargs'
  obtain ⟨rfl, rfl⟩ := hready.attach hargs''
  obtain ⟨op, hop⟩ := Option.isSome_iff_exists.mp hop
  obtain ⟨hcalled, hparams⟩ := Operator.isCalled_of_findFor? hop
  have hkinds : List.Forall₂ (fun want source => want.isSource = source.isSome) op.params sources :=
    (forall₂_comp hparams hshapes).imp fun _ _ ⟨_, hwant, hsource⟩ => hwant.trans hsource.symm
  exact hready.placement hcalled hkinds h

end Operator

section Expand

variable {model : Model} {Γ : Scope} {e r : Expr} {x x' : Expansion}

/-- A traversal of the children of a node that is no reference itself places all joins. -/
theorem placement_traverse (he : RefersTo (fun _ => False) e)
    (hplaced : ∀ c ∈ e.children, Placed model c) (hΓ : ScopeKeys V Γ)
    (hV : ∀ key, V key → Known x.state key) (hx : Tidy x)
    (h : (e.traverse fun c _ => Prod.fst <$> expand model Γ (fun _ => none) c).Gives x r x') :
    Placement V x (r, none) x' := by
  rw [traverse_eq, gives_map] at h
  obtain ⟨cs, hcs, rfl⟩ := h
  obtain ⟨hframe, hrefers⟩ := Frame.mapM (V := V) (N := HasJoin)
    (R := fun s _ c => c.RefersOnly (InView V s))
    (fun u u' _ _ c _ hframe hc => hc.mono fun a ha => ha.mono hframe.grows)
    (fun c hc u d u' hgrows hu hd => by
      obtain ⟨p, hp, rfl⟩ := gives_map.mp hd
      have hplacement := hplaced c hc V Γ _ u p u' hΓ Invariant.unbound
        (fun key hkey => (hV key hkey).mono hgrows) hu hp
      exact ⟨hplacement.frame, hplacement.refers⟩) hx hcs
  have hchildren : (e.setChildren cs).children = cs := children_setChildren hrefers.length_eq.symm
  refine ⟨hframe.mono (fun _ hV => hV) ?_, ?_, nofun⟩
  · rintro l ⟨c, hc, hl⟩
    refine hl.of_child ?_
    rw [hchildren]
    exact hc
  · apply refersOnly_of_children
    · intro a entity heq
      exact ((hostPersistent_refersTo _).setChildren e cs he a entity heq).elim
    · rw [hchildren]
      exact forall_mem_of_forall₂ hrefers fun _ _ _ hc => hc

/-- A node of the host language with one child places what its child does. -/
theorem Placement.node {p : Expr × Option SourceKey} (h : Placement V x p x')
    (hr : r.isRelational = false) (hchild : r.children = [p.1]) : Placement V x (r, none) x' := by
  refine ⟨h.frame.mono (fun _ hV => hV) fun l hl => hl.of_child ?_, ?_, nofun⟩
  · rw [hchild]
    exact List.mem_singleton_self _
  · apply refersOnly_of_not_isRelational hr
    rw [hchild]
    exact List.forall_mem_singleton.mpr h.refers

/-- The expansion of a tree without references to joined rows places all joins. -/
theorem placed_of_noReference (he : e.Everywhere (RefersTo fun _ => False)) : Placed model e := by
  induction e using childInduction with
  | step e ih =>
    have hplaced : ∀ c ∈ e.children, Placed model c := fun c hc => ih c hc (he.child hc)
    intro V Γ bound x result x' hΓ hbound hV hx h
    -- Operators, quotes, lambdas and members have rules of their own; all other nodes are traversed.
    cases e with
    | call m receiver args type =>
      cases hop : (Operator.findFor? m args).isSome with
      | true =>
        have hargs : ∀ a ∈ args, Placed model a := fun a ha =>
          hplaced a (List.mem_append_right _ ha)
        exact placement_operator hop hargs hΓ hV hx h
      | false =>
        rw [expand_call hop] at h
        obtain ⟨node, t, hnode, h⟩ := gives_bind.mp h
        obtain ⟨rfl, rfl⟩ := gives_pure.mp h
        exact placement_traverse he.root hplaced hΓ hV hx hnode
    | quote inner =>
      rw [Navigation.expand] at h
      obtain ⟨p, t, hp, h⟩ := gives_bind.mp h
      obtain ⟨rfl, rfl⟩ := gives_pure.mp h
      have hinner := hplaced inner List.mem_cons_self V Γ bound x p x' hΓ hbound hV hx hp
      exact hinner.node rfl rfl
    | lambda params body =>
      rw [Navigation.expand] at h
      obtain ⟨p, t, hp, h⟩ := gives_bind.mp h
      obtain ⟨rfl, rfl⟩ := gives_pure.mp h
      have hbody := hplaced body List.mem_cons_self V _ _ x p x'
        (Invariant.scopeKeys_bind hΓ hbound) Invariant.unbound hV hx hp
      exact hbody.node rfl rfl
    | member row name type =>
      rw [Navigation.expand] at h
      obtain ⟨p, t, hp, h⟩ := gives_bind.mp h
      obtain ⟨r, t', hr, h⟩ := gives_bind.mp h
      obtain ⟨rfl, rfl⟩ := gives_pure.mp h
      have hrow := hplaced row List.mem_cons_self V Γ _ x p t hΓ Invariant.unbound hV hx hp
      obtain ⟨hframe, hrefers, hjoins⟩ := frame_expandMember hΓ
        (fun key hkey => (hV key hkey).mono hrow.frame.grows) hrow.frame.tidy hrow.refers hr
      refine ⟨(hrow.frame.mono (fun _ hV => hV) hjoins).trans hframe, hrefers, ?_⟩
      intro key hkey
      cases hkey
    | _ =>
      rw [Navigation.expand] at h
      · obtain ⟨node, t, hnode, h⟩ := gives_bind.mp h
        obtain ⟨rfl, rfl⟩ := gives_pure.mp h
        exact placement_traverse he.root hplaced hΓ hV hx hnode
      all_goals
        intros
        contradiction

/-- The expansion of a tree of the host language places all joins. -/
theorem placed_of_everywhere (he : e.Everywhere fun n => n.isRelational = false) :
    Placed model e := by
  apply placed_of_noReference
  refine he.mono fun n hn a entity heq => ?_
  rw [heq] at hn
  cases hn

end Expand

/-- No join is lost, and no reference to a joined row leaves the scope of its join. -/
theorem joined_rows_in_scope {ctx : Context} {e r : Expr} {s s' : State}
    (he : e.Everywhere fun n => n.isRelational = false) (hjoins : s.joins = [])
    (h : (navigation.run ctx e).Gives s r s') :
    (∀ j ∈ s'.joins, r.HasJoin j.2.row) ∧
      ∀ path a entity, r.at? path = some (.sourceRef a entity) → r.VisibleAt path a := by
  obtain ⟨key, x, hx, hpending, rfl⟩ := gives_run.mp h
  -- Nothing is in view of a whole query.
  have hplacement := placed_of_everywhere he (fun _ => False) [] _ _ _ _
    (List.forall_mem_nil _) Invariant.unbound nofun (.of_no_joins hjoins) hx
  refine ⟨fun j hj => ?_, fun path a entity hat => ?_⟩
  · rcases hplacement.frame.joins j hj with hj | ⟨hV, -⟩ | ⟨-, hplaced⟩
    · rw [hjoins] at hj
      cases hj
    · exact hV.elim
    · exact hplaced
  · rcases hplacement.refers path a entity hat with ⟨anchor, hV, -⟩ | hvisible
    · exact hV.elim
    · exact hvisible

/-- The city of the address of a customer. -/
def cityOf (customer : Expr) : Expr :=
  .member (.member customer "Address" (.entity "Address")) "City" .utf8

/-- Customers with an order of a customer of the same city. -/
def neighbours : Expr :=
  let c : Param := ⟨"c", .entity "Customer"⟩
  let o : Param := ⟨"o", .entity "Order"⟩
  let orders : Expr := .call ⟨"Queryable", "AsQueryable", []⟩ none
    [.member (.param c) "Orders" (.sequence (.entity "Order"))] (.queryable (.entity "Order"))
  let sameCity : Expr := .binary .eq
    (cityOf (.member (.param o) "Customer" (.entity "Customer"))) (cityOf (.param c))
  .call ⟨"Queryable", "Where", []⟩ none
    [.entitySet "Customer",
     .quote (.lambda [c] (.call ⟨"Queryable", "Any", []⟩ none
       [orders, .quote (.lambda [o] sameCity)] .boolean))]
    (.queryable (.entity "Customer"))

/-- The join of a source, with rows of one entity, to the addresses. -/
def joinAddress (label : Nat) (outer : Expr) (entity : String) (customer : Expr) : Expr :=
  .navigationJoin ⟨⟨label⟩, "Address", .leftOuter⟩ outer
    (.baseTable ⟨label⟩ none "addresses" "Address")
    (.lambda [⟨"r", .entity entity⟩] (.member customer "AddressId" .int32))
    (.lambda [⟨"i", .entity "Address"⟩] (.member (.param ⟨"i", .entity "Address"⟩) "Id" .int32))

/-- The same customers with the joins put in. The inner lambda refers to joins around both sources. -/
def joinedNeighbours : Expr :=
  let c : Param := ⟨"c", .entity "Customer"⟩
  let o : Param := ⟨"o", .entity "Order"⟩
  let e : Param := ⟨"e", .entity "Order"⟩
  let ofCustomer : Expr := .binary .eq (.member (.param e) "CustomerId" .int32)
    (.member (.param c) "Id" .int32)
  let orders : Expr := .call ⟨"Queryable", "Where", [.entity "Order", .boolean]⟩ none
    [.entitySet "Order", .quote (.lambda [e] ofCustomer)] (.queryable (.entity "Order"))
  let customers : Expr := .navigationJoin ⟨⟨0⟩, "Customer", .inner⟩ orders
    (.baseTable ⟨0⟩ none "customers" "Customer")
    (.lambda [⟨"r", .entity "Order"⟩]
      (.member (.param ⟨"r", .entity "Order"⟩) "CustomerId" .int32))
    (.lambda [⟨"i", .entity "Customer"⟩]
      (.member (.param ⟨"i", .entity "Customer"⟩) "Id" .int32))
  let sameCity : Expr := .binary .eq (.member (.sourceRef ⟨1⟩ "Address") "City" .utf8)
    (.member (.sourceRef ⟨2⟩ "Address") "City" .utf8)
  .call ⟨"Queryable", "Where", []⟩ none
    [joinAddress 2 (.entitySet "Customer") "Customer" (.param ⟨"r", .entity "Customer"⟩),
     .quote (.lambda [c] (.call ⟨"Queryable", "Any", []⟩ none
       [joinAddress 1 customers "Order" (.sourceRef ⟨0⟩ "Customer"),
        .quote (.lambda [o] sameCity)] .boolean))]
    (.queryable (.entity "Customer"))

/-- The state after the joins of the two sources. -/
def neighbourJoins : State where
  joins := [((.root 1, "Customer"), ⟨⟨0⟩, "Customer", .root 1, .inner⟩),
    ((.join ⟨0⟩, "Address"), ⟨⟨1⟩, "Address", .root 1, .leftOuter⟩),
    ((.root 0, "Address"), ⟨⟨2⟩, "Address", .root 0, .leftOuter⟩)]
  roots := [.entity "Customer", .entity "Order"]
  nextAlias := 3

theorem joined_neighbours_in_scope :
    (neighbours.Everywhere fun n => n.isRelational = false) ∧ State.fresh.joins = [] ∧
      (navigation.run ⟨Sample.model, Sample.catalog⟩ neighbours).Gives .fresh joinedNeighbours
        neighbourJoins ∧
      (∀ j ∈ neighbourJoins.joins, joinedNeighbours.HasJoin j.2.row) ∧
      ∀ path a entity, joinedNeighbours.at? path = some (.sourceRef a entity) →
        joinedNeighbours.VisibleAt path a := by
  have hhost : neighbours.Everywhere fun n => n.isRelational = false := by
    have hnodes : (neighbours.nodes.all fun n => !n.isRelational) = true := by cbv
    intro n hn
    simpa using List.all_eq_true.mp hnodes n hn
  have hrun : (navigation.run ⟨Sample.model, Sample.catalog⟩ neighbours).Gives .fresh
      joinedNeighbours neighbourJoins := by
    unfold Gives
    cbv
  exact ⟨hhost, rfl, hrun, joined_rows_in_scope hhost rfl hrun⟩

end QueryLowering.Pass.Navigation
