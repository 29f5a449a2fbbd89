import QueryLowering.Proofs.Everywhere
import QueryLowering.Proofs.Unfolding

/-!
What the expansion of navigations keeps. An expansion changes the state in three ways: it registers a
root, records a join for a member of a row, and attaches joins that wait. What each of these keeps,
of the state and of the trees that have been built, the whole expansion keeps.
-/

namespace QueryLowering.Pass.Navigation

open QueryLowering.Expr StateStep

/-- Everything that an expansion can do to the state of a query: roots and joins are put behind the
earlier ones, and aliases are handed out. -/
structure Grows (s s' : State) : Prop where
  metadata : s'.metadata = s.metadata
  roots : s.roots <+: s'.roots
  joins : s.joins <+: s'.joins
  aliases : s.nextAlias ≤ s'.nextAlias

namespace Grows

variable {s t u : State}

theorem refl (s : State) : Grows s s :=
  ⟨rfl, List.prefix_rfl, List.prefix_rfl, Nat.le_refl _⟩

theorem trans (hst : Grows s t) (htu : Grows t u) : Grows s u :=
  ⟨htu.metadata.trans hst.metadata, hst.roots.trans htu.roots, hst.joins.trans htu.joins,
    Nat.le_trans hst.aliases htu.aliases⟩

theorem addRoot (s : State) (element : DataType) : Grows s (s.addRoot element).2 :=
  ⟨rfl, List.prefix_append _ _, List.prefix_rfl, Nat.le_refl _⟩

end Grows

/-- A join for a navigation that has none yet is put behind the others. -/
theorem joinTable_insert {key : SourceKey × String} {joins : JoinTable} (j : Join)
    (h : joins.lookup key = none) : State.JoinTable.insert key j joins = joins ++ [(key, j)] := by
  induction joins with
  | nil => rfl
  | cons e joins ih =>
    rw [List.lookup_cons] at h
    split at h
    · cases h
    · rename_i hne
      have hkey : ¬ e.1 = key := by
        intro heq
        rw [heq, beq_self_eq_true] at hne
        cases hne
      rw [State.JoinTable.insert, if_neg hkey, ih h, List.cons_append]

/-- What a new join does to the state. -/
theorem state_addJoin {key : SourceKey} {n : QueryLowering.Navigation} {x : Expansion}
    (parts : JoinParts) (h : x.state.findJoin? key n.name = none) :
    (addJoin key n parts x).2.state =
      { x.state with
        joins := x.state.joins ++ [((key, n.name),
          ⟨⟨x.state.nextAlias⟩, parts.target.name, parts.anchor, joinKind x.state key n⟩)]
        nextAlias := x.state.nextAlias + 1 } := by
  unfold addJoin State.insertJoin
  dsimp only [State.takeAlias]
  rw [joinTable_insert _ h]

/-- A reference to the row that a navigation leads to is one to a join that is recorded already, or
to one that is recorded now. -/
theorem expandReference_cases {model : Model} {key : SourceKey} {declaring : Entity}
    {n : QueryLowering.Navigation} {node r : Expr} {x x' : Expansion}
    (h : (expandReference model key declaring n node).Gives x r x') :
    (∃ j, x.state.findJoin? key n.name = some j ∧ r = .sourceRef j.row j.target ∧ x' = x) ∨
      ∃ parts, x.state.findJoin? key n.name = none ∧
        joinParts model x.state key declaring n node = .ok parts ∧
        r = .sourceRef ⟨x.state.nextAlias⟩ parts.target.name ∧ x' = (addJoin key n parts x).2 := by
  unfold expandReference at h
  obtain ⟨y, t, hget, hfound⟩ := gives_bind.mp h
  obtain ⟨rfl, rfl⟩ := gives_get.mp hget
  split at hfound
  · rename_i j hj
    obtain ⟨rfl, rfl⟩ := gives_pure.mp hfound
    exact .inl ⟨j, hj, rfl, rfl⟩
  · rename_i hnone
    obtain ⟨parts, t, hparts, hnew⟩ := gives_bind.mp hfound
    obtain ⟨hparts, rfl⟩ := gives_ofExcept.mp hparts
    obtain ⟨a, t, hadd, hnew⟩ := gives_bind.mp hnew
    obtain ⟨rfl, rfl⟩ := gives_pure.mp hnew
    have hadd := gives_modifyGet.mp hadd
    cases hadd
    exact .inr ⟨parts, hnone, hparts, rfl, rfl⟩

/-- A member of a row stays, or becomes a reference to a joined row, or the rows of a collection. -/
theorem expandMember_cases {model : Model} {Γ : Scope} {row r : Expr} {name : String}
    {type : DataType} {x x' : Expansion}
    (h : (expandMember model Γ row name type).Gives x r x') :
    (r = .member row name type ∧ x' = x) ∨
      (∃ key declaring n, rowKey? Γ row = some key ∧
        (expandReference model key declaring n (.member row name type)).Gives x r x') ∨
      ∃ declaring n, expandCollection model row declaring n (.member row name type) = .ok r ∧
        x' = x := by
  unfold expandMember at h
  simp only at h
  split at h
  · exact .inl (gives_pure.mp h)
  · split at h
    · exact .inl (gives_pure.mp h)
    · split at h
      · rename_i hkey
        exact .inr (.inl ⟨_, _, _, hkey, h⟩)
      · exact .inl (gives_pure.mp h)
      · exact .inr (.inr ⟨_, _, gives_ofExcept.mp h⟩)

theorem grows_expandMember {model : Model} {Γ : Scope} {row r : Expr} {name : String}
    {type : DataType} {x x' : Expansion}
    (h : (expandMember model Γ row name type).Gives x r x') : Grows x.state x'.state := by
  rcases expandMember_cases h with ⟨-, rfl⟩ | ⟨key, declaring, n, -, h⟩ | ⟨_, _, -, rfl⟩
  · exact .refl _
  · rcases expandReference_cases h with ⟨j, -, -, rfl⟩ | ⟨parts, hnone, -, -, rfl⟩
    · exact .refl _
    · rw [state_addJoin parts hnone]
      exact ⟨rfl, List.prefix_rfl, List.prefix_append _ _, Nat.le_succ _⟩
  · exact .refl _

/-- All sources in a scope are of a kind. -/
def ScopeKeys (K : SourceKey → Prop) (Γ : Scope) : Prop := ∀ b ∈ Γ, ∀ key ∈ b.2, K key

/-- The three kinds of steps keep a property of the state and one of the trees built so far, if nodes
of the query are of the first kind and sources of the last. -/
structure Invariant (model : Model) (E : Expr → Prop) (I : Expansion → Prop)
    (P : Expansion → Expr → Prop) (K : SourceKey → Prop) : Prop where
  mono {x x' : Expansion} {e : Expr} : Grows x.state x'.state → P x e → P x' e
  node {x : Expansion} {e : Expr} {cs : List Expr} : E e → cs.length = e.children.length →
    (∀ c ∈ cs, P x c) → P x (e.setChildren cs)
  root (i : Nat) : K (.root i)
  addRoot {x : Expansion} (element : DataType) : I x →
    I { x with state := (x.state.addRoot element).2 }
  member {x x' : Expansion} {Γ : Scope} {row r : Expr} {name : String} {type : DataType} :
    ScopeKeys K Γ → P x row → I x → (expandMember model Γ row name type).Gives x r x' →
      P x' r ∧ I x'
  attach {x x' : Expansion} {key : SourceKey} {e r : Expr} : P x e → I x →
    (attach key e).Gives x r x' → P x' r ∧ I x'

namespace Invariant

variable {model : Model} {E : Expr → Prop} {I : Expansion → Prop} {P : Expansion → Expr → Prop}
  {K : SourceKey → Prop} {Γ : Scope} {e r : Expr} {x x' : Expansion}
  {source : Option (Expr × SourceKey)}

theorem grows_attach {key : SourceKey} (h : (Navigation.attach key e).Gives x r x') :
    x'.state = x.state := by
  have h := gives_modifyGet.mp h
  cases h
  rfl

theorem gives_addRoot {element : DataType} {key : SourceKey}
    (h : (updateState fun s => s.addRoot element).Gives x key x') :
    key = .root x.state.roots.length ∧
      x' = { x with state := (x.state.addRoot element).2 } := by
  have h := gives_modifyGet.mp h
  cases h
  exact ⟨rfl, rfl⟩

theorem scopeKeys_bind {params : List Param} {bound : Nat → Option SourceKey}
    (hΓ : ScopeKeys K Γ) (hbound : ∀ i, ∀ key ∈ bound i, K key) :
    ScopeKeys K (Γ.bind params bound) := by
  intro b hb key hkey
  rcases List.mem_append.mp hb with hb | hb
  · obtain ⟨p, -, rfl⟩ := List.mem_map.mp (List.mem_reverse.mp hb)
    exact hbound p.2 key hkey
  · exact hΓ b hb key hkey

theorem no_key : ∀ key ∈ (none : Option SourceKey), K key := by
  intro key hkey
  cases hkey

/-- No source is bound where none is given. -/
theorem unbound (i : Nat) : ∀ key ∈ (fun _ => none : Nat → Option SourceKey) i, K key := no_key

theorem scopeKeys_argSources {operator : String} {keys : List SourceKey} {position : Nat}
    (hkeys : ∀ key ∈ keys, K key) (i : Nat) :
    ∀ key ∈ argSources operator keys position e i, K key := by
  intro key hkey
  have hbound : ∀ key ∈ (boundSource? operator position i).bind (keys[·]?), K key := by
    intro key hkey
    obtain ⟨j, -, hj⟩ := Option.bind_eq_some_iff.mp hkey
    exact hkeys key (List.mem_of_getElem? hj)
  unfold argSources at hkey
  cases hshape : ArgShape.of e with
  | lambda | quotedLambda =>
    rw [hshape] at hkey
    exact hbound key hkey
  | _ =>
    rw [hshape] at hkey
    cases hkey

variable (hinv : Invariant model E I P K)
include hinv

theorem asSource {p : Expr × Option SourceKey} {q : Expr × SourceKey} (hkey : ∀ k ∈ p.2, K k)
    (hx : I x) (h : (Navigation.asSource p).Gives x q x') :
    q.1 = p.1 ∧ K q.2 ∧ I x' ∧ Grows x.state x'.state := by
  obtain ⟨e, _ | key⟩ := p
  · obtain ⟨key, t, hroot, h⟩ := gives_bind.mp h
    obtain ⟨rfl, rfl⟩ := gives_pure.mp h
    obtain ⟨rfl, rfl⟩ := gives_addRoot hroot
    exact ⟨rfl, hinv.root _, hinv.addRoot _ hx, .addRoot _ _⟩
  · obtain ⟨rfl, rfl⟩ := gives_pure.mp h
    exact ⟨rfl, hkey key rfl, hx, .refl _⟩

theorem resultKey {name : String} {first key : Option SourceKey} (hfirst : ∀ k ∈ first, K k)
    (hx : I x) (h : (Navigation.resultKey name first e).Gives x key x') :
    (∀ k ∈ key, K k) ∧ I x' ∧ Grows x.state x'.state := by
  unfold Navigation.resultKey at h
  split at h
  · obtain ⟨rfl, rfl⟩ := gives_pure.mp h
    exact ⟨hfirst, hx, .refl _⟩
  · split at h
    · obtain ⟨k, hk, rfl⟩ := gives_map.mp h
      obtain ⟨rfl, rfl⟩ := gives_addRoot hk
      refine ⟨?_, hinv.addRoot _ hx, .addRoot _ _⟩
      intro k hk
      cases hk
      exact hinv.root _
    · obtain ⟨rfl, rfl⟩ := gives_pure.mp h
      exact ⟨no_key, hx, .refl _⟩

theorem rebuild {name : String} {args : List Expr} {first : Option SourceKey}
    {result : Expr × Option SourceKey} (he : E e) (hargs : ∀ a ∈ args, P x a)
    (hfirst : ∀ k ∈ first, K k) (hx : I x)
    (h : (Navigation.rebuild e name args first).Gives x result x') :
    P x' result.1 ∧ (∀ k ∈ result.2, K k) ∧ I x' ∧ Grows x.state x'.state := by
  have hfinish : (rebuild.finish e name args first).Gives x result x' →
      P x' result.1 ∧ (∀ k ∈ result.2, K k) ∧ I x' ∧ Grows x.state x'.state := by
    intro h
    unfold rebuild.finish at h
    obtain ⟨node, t, hnode, hrest⟩ := gives_bind.mp h
    obtain ⟨hchildren, rfl⟩ := gives_ofExcept.mp hnode
    obtain ⟨hlen, rfl⟩ := withChildren_eq_ok.mp hchildren
    obtain ⟨key, t, hkey, hrest⟩ := gives_bind.mp hrest
    obtain ⟨rfl, rfl⟩ := gives_pure.mp hrest
    obtain ⟨hresult, hx', hgrows⟩ := hinv.resultKey hfirst hx hkey
    exact ⟨hinv.mono hgrows (hinv.node he hlen hargs), hresult, hx', hgrows⟩
  unfold Navigation.rebuild at h
  split at h
  · split at h
    · obtain ⟨rfl, rfl⟩ := gives_pure.mp h
      exact ⟨hargs _ List.mem_cons_self, hfirst, hx, .refl _⟩
    · exact hfinish h
  · exact hfinish h

/-- The expansion of one tree keeps the invariant, from whatever state and in whatever scope. -/
def KeptBy (model : Model) (I : Expansion → Prop) (P : Expansion → Expr → Prop)
    (K : SourceKey → Prop) (e : Expr) : Prop :=
  ∀ Γ bound x result x', ScopeKeys K Γ → (∀ i, ∀ key ∈ bound i, K key) → I x →
    (expand model Γ bound e).Gives x result x' →
      P x' result.1 ∧ (∀ key ∈ result.2, K key) ∧ I x' ∧ Grows x.state x'.state

theorem expandSource (hkept : KeptBy model I P K e) (hΓ : ScopeKeys K Γ) (hx : I x)
    (h : (Navigation.expandSource model Γ e).Gives x source x') :
    (∀ p ∈ source, P x' p.1 ∧ K p.2) ∧ I x' ∧ Grows x.state x'.state := by
  unfold Navigation.expandSource at h
  split at h
  · obtain ⟨p, t, hp, h⟩ := gives_bind.mp h
    obtain ⟨q, t', hq, h⟩ := gives_bind.mp h
    obtain ⟨rfl, rfl⟩ := gives_pure.mp h
    obtain ⟨hP, hkey, ht, hgrows⟩ := hkept _ _ _ _ _ hΓ unbound hx hp
    obtain ⟨heq, hK, ht', hgrows'⟩ := hinv.asSource hkey ht hq
    refine ⟨?_, ht', hgrows.trans hgrows'⟩
    intro p hp
    cases hp
    rw [heq]
    exact ⟨hinv.mono hgrows' hP, hK⟩
  · obtain ⟨rfl, rfl⟩ := gives_pure.mp h
    refine ⟨?_, hx, .refl _⟩
    intro p hp
    cases hp

omit hinv in
theorem expandArg {operator : String} {keys : List SourceKey} {i : Nat}
    (hkept : KeptBy model I P K e) (hΓ : ScopeKeys K Γ) (hkeys : ∀ key ∈ keys, K key)
    (hsource : ∀ p ∈ source, P x p.1) (hx : I x)
    (h : (Navigation.expandArg model Γ operator keys i e source).Gives x r x') :
    P x' r ∧ I x' ∧ Grows x.state x'.state := by
  rcases source with _ | ⟨s, key⟩
  · obtain ⟨p, t, hp, h⟩ := gives_bind.mp h
    obtain ⟨rfl, rfl⟩ := gives_pure.mp h
    obtain ⟨hP, -, ht, hgrows⟩ := hkept _ _ _ _ _ hΓ (scopeKeys_argSources hkeys) hx hp
    exact ⟨hP, ht, hgrows⟩
  · obtain ⟨rfl, rfl⟩ := gives_pure.mp h
    exact ⟨hsource (r, key) rfl, hx, .refl _⟩

theorem attachSource (he : P x e) (hx : I x)
    (h : (Navigation.attachSource e source).Gives x r x') :
    P x' r ∧ I x' ∧ Grows x.state x'.state := by
  rcases source with _ | ⟨s, key⟩
  · obtain ⟨rfl, rfl⟩ := gives_pure.mp h
    exact ⟨he, hx, .refl _⟩
  · obtain ⟨hr, hx'⟩ := hinv.attach he hx h
    refine ⟨hr, hx', ?_⟩
    rw [grows_attach h]
    exact .refl _

/-- A traversal of children keeps what their expansions keep. -/
theorem traverse (he : E e) (hkept : ∀ c ∈ e.children, KeptBy model I P K c)
    (hΓ : ScopeKeys K Γ) (hx : I x)
    (h : (e.traverse fun c _ => Prod.fst <$> expand model Γ (fun _ => none) c).Gives x r x') :
    P x' r ∧ I x' ∧ Grows x.state x'.state := by
  rw [traverse_eq, gives_map] at h
  obtain ⟨cs, hcs, rfl⟩ := h
  obtain ⟨hall, hx', hgrows⟩ := Gives.mapM_grow (I := I)
    (L := fun t t' => Grows t.state t'.state) (R := fun t _ c => P t c)
    (fun t => .refl t.state) (fun _ _ _ => .trans) (fun _ _ _ _ => hinv.mono)
    (fun c hc t d t' ht hd => by
      obtain ⟨p, hp, rfl⟩ := gives_map.mp hd
      obtain ⟨hP, -, ht', hgrows⟩ := hkept c hc _ _ _ _ _ hΓ unbound ht hp
      exact ⟨hP, ht', hgrows⟩) hx hcs
  exact ⟨hinv.node he hall.length_eq.symm (forall_mem_of_forall₂ hall fun _ _ _ hc => hc), hx',
    hgrows⟩

/-- An operator call keeps what the expansions of its arguments keep. Sources come first, then the
other arguments, then the joins around the sources. -/
theorem operator {m : Method} {receiver : Option Expr} {args : List Expr} {type : DataType}
    {bound : Nat → Option SourceKey} {result : Expr × Option SourceKey}
    (hop : (Operator.findFor? m args).isSome = true) (he : E (.call m receiver args type))
    (hkept : ∀ a ∈ args, KeptBy model I P K a) (hΓ : ScopeKeys K Γ) (hx : I x)
    (h : (expand model Γ bound (.call m receiver args type)).Gives x result x') :
    P x' result.1 ∧ (∀ key ∈ result.2, K key) ∧ I x' ∧ Grows x.state x'.state := by
  rw [expand_operator hop] at h
  obtain ⟨sources, t, hsources, h⟩ := gives_bind.mp h
  obtain ⟨hsources, ht, hgrows⟩ := Gives.mapM_grow (I := I)
    (L := fun t t' => Grows t.state t'.state)
    (R := fun t _ (s : Option (Expr × SourceKey)) => ∀ p ∈ s, P t p.1 ∧ K p.2)
    (fun t => .refl t.state) (fun _ _ _ => .trans)
    (fun _ _ _ _ hle hR p hp => ⟨hinv.mono hle (hR p hp).1, (hR p hp).2⟩)
    (fun a ha _ _ _ ht hs => hinv.expandSource (hkept a ha) hΓ ht hs) hx hsources
  have hsource := forall_mem_of_forall₂ hsources fun _ _ _ hs => hs
  have hkeys : ∀ key ∈ sources.filterMap fun s => s.map (·.2), K key := by
    intro key hkey
    obtain ⟨s, hs, hkey⟩ := List.mem_filterMap.mp hkey
    obtain ⟨p, rfl, rfl⟩ := Option.map_eq_some_iff.mp hkey
    exact (hsource _ hs p rfl).2
  obtain ⟨args', t', hargs', h⟩ := gives_bind.mp h
  -- The sources have been expanded in an earlier state than that in which an argument is.
  obtain ⟨hargs', ⟨ht', -⟩, hgrows'⟩ := Gives.mapM_grow
    (I := fun u => I u ∧ Grows t.state u.state)
    (L := fun t t' => Grows t.state t'.state) (R := fun t _ a => P t a)
    (fun t => .refl t.state) (fun _ _ _ => .trans) (fun _ _ _ _ => hinv.mono)
    (fun a ha u b u' hu hb => by
      have hzip := List.of_mem_zip (List.fst_mem_of_mem_zipIdx ha)
      obtain ⟨hP, hu', hgrows⟩ := expandArg (hkept _ hzip.1) hΓ hkeys
        (fun p hp => hinv.mono hu.2 (hsource _ hzip.2 p hp).1) hu.1 hb
      exact ⟨hP, ⟨hu', hu.2.trans hgrows⟩, hgrows⟩) ⟨ht, .refl _⟩ hargs'
  have harg' := forall_mem_of_forall₂ hargs' fun _ _ _ ha => ha
  obtain ⟨args'', t'', hargs'', h⟩ := gives_bind.mp h
  obtain ⟨hargs'', ⟨ht'', -⟩, hgrows''⟩ := Gives.mapM_grow
    (I := fun u => I u ∧ Grows t'.state u.state)
    (L := fun t t' => Grows t.state t'.state) (R := fun t _ a => P t a)
    (fun t => .refl t.state) (fun _ _ _ => .trans) (fun _ _ _ _ => hinv.mono)
    (fun a ha u b u' hu hb => by
      have hold := hinv.mono hu.2 (harg' _ (List.of_mem_zip ha).1)
      obtain ⟨hP, hu', hgrows⟩ := hinv.attachSource hold hu.1 hb
      exact ⟨hP, ⟨hu', hu.2.trans hgrows⟩, hgrows⟩) ⟨ht', .refl _⟩ hargs''
  have harg'' := forall_mem_of_forall₂ hargs'' fun _ _ _ ha => ha
  have hfirst : ∀ key ∈ (sources.filterMap fun s => s.map (·.2)).head?, K key :=
    fun key hkey => hkeys key (List.mem_of_mem_head? hkey)
  obtain ⟨hP, hkey, hx', hlast⟩ := hinv.rebuild he harg'' hfirst ht'' h
  exact ⟨hP, hkey, hx', ((hgrows.trans hgrows').trans hgrows'').trans hlast⟩

/-- The expansion of a tree keeps the invariant. -/
theorem expand (he : e.Everywhere E) : KeptBy model I P K e := by
  induction e using childInduction with
  | step e ih =>
    have hkept : ∀ c ∈ e.children, KeptBy model I P K c := fun c hc => ih c hc (he.child hc)
    intro Γ bound x result x' hΓ hbound hx h
    cases e with
    | call m receiver args type =>
      cases hop : (Operator.findFor? m args).isSome with
      | true =>
        exact hinv.operator hop he.root (fun a ha => hkept a (List.mem_append_right _ ha)) hΓ hx h
      | false =>
        rw [expand_call hop] at h
        obtain ⟨node, t, hnode, h⟩ := gives_bind.mp h
        obtain ⟨rfl, rfl⟩ := gives_pure.mp h
        obtain ⟨hP, hx', hgrows⟩ := hinv.traverse he.root hkept hΓ hx hnode
        -- Rows come out of operators only, so there is no key to speak of here.
        exact ⟨hP, no_key, hx', hgrows⟩
    | quote inner =>
      rw [Navigation.expand] at h
      obtain ⟨p, t, hp, h⟩ := gives_bind.mp h
      obtain ⟨rfl, rfl⟩ := gives_pure.mp h
      obtain ⟨hP, -, hx', hgrows⟩ :=
        hkept inner List.mem_cons_self _ _ _ _ _ hΓ hbound hx hp
      have hnode : P x' ((Expr.quote inner).setChildren [p.1]) :=
        hinv.node he.root rfl (List.forall_mem_singleton.mpr hP)
      exact ⟨hnode, no_key, hx', hgrows⟩
    | lambda params body =>
      rw [Navigation.expand] at h
      obtain ⟨p, t, hp, h⟩ := gives_bind.mp h
      obtain ⟨rfl, rfl⟩ := gives_pure.mp h
      obtain ⟨hP, -, hx', hgrows⟩ :=
        hkept body List.mem_cons_self _ _ _ _ _ (scopeKeys_bind hΓ hbound) unbound hx hp
      have hnode : P x' ((Expr.lambda params body).setChildren [p.1]) :=
        hinv.node he.root rfl (List.forall_mem_singleton.mpr hP)
      exact ⟨hnode, no_key, hx', hgrows⟩
    | member row name type =>
      rw [Navigation.expand] at h
      obtain ⟨p, t, hp, h⟩ := gives_bind.mp h
      obtain ⟨r, t', hr, h⟩ := gives_bind.mp h
      obtain ⟨rfl, rfl⟩ := gives_pure.mp h
      obtain ⟨hP, -, ht, hgrows⟩ := hkept row List.mem_cons_self _ _ _ _ _ hΓ unbound hx hp
      obtain ⟨hr', hx'⟩ := hinv.member hΓ hP ht hr
      exact ⟨hr', no_key, hx', hgrows.trans (grows_expandMember hr)⟩
    | _ =>
      rw [Navigation.expand] at h
      · obtain ⟨node, t, hnode, h⟩ := gives_bind.mp h
        obtain ⟨rfl, rfl⟩ := gives_pure.mp h
        obtain ⟨hP, hx', hgrows⟩ := hinv.traverse he.root hkept hΓ hx hnode
        exact ⟨hP, no_key, hx', hgrows⟩
      all_goals
        intros
        contradiction

end Invariant

end QueryLowering.Pass.Navigation
