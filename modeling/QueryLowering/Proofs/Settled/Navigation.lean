import QueryLowering.Proofs.Expansion
import QueryLowering.Proofs.Settled.NullGuard

/-!
Trees without a navigation that could be expanded. A navigation to one row is expanded if it starts
from a row of a known source: which source that is does not matter, so a scope has only to tell for
each parameter whether it ranges over the rows of one.
-/

namespace QueryLowering.Pass.Navigation

open QueryLowering.Expr StateStep

/-- The parameters in scope, innermost first, with whether they range over the rows of a source. -/
abbrev RowScope := List (Param × Bool)

def RowScope.bind (Δ : RowScope) (params : List Param) (ranges : Nat → Bool) : RowScope :=
  (params.zipIdx.map fun p => (p.1, ranges p.2)).reverse ++ Δ

/-- Does a parameter range over the rows of a source? -/
def RowScope.ranges (Δ : RowScope) (p : Param) : Bool :=
  match Δ.find? fun b => b.1.name == p.name with
  | some (q, ranges) => decide (q = p) && ranges
  | none => false

/-- A scope without its sources. -/
def Scope.rows (Γ : Scope) : RowScope := Γ.map fun b => (b.1, b.2.isSome)

theorem Scope.rows_bind (Γ : Scope) (params : List Param) (source : Nat → Option SourceKey) :
    (Γ.bind params source).rows = Γ.rows.bind params fun i => (source i).isSome := by
  simp [Scope.bind, RowScope.bind, Scope.rows, Function.comp_def]

theorem Scope.ranges_rows (Γ : Scope) (p : Param) : Γ.rows.ranges p = (Γ.source? p).isSome := by
  unfold Scope.rows RowScope.ranges Scope.source?
  rw [List.find?_map]
  simp only [Function.comp_def]
  cases Γ.find? fun b => b.1.name == p.name with
  | none => rfl
  | some b =>
    by_cases hp : b.1 = p
    · simp [hp]
    · simp [hp]

/-- Is this a row of a source? -/
def isRow (Δ : RowScope) : Expr → Bool
  | .param p => Δ.ranges p
  | .sourceRef .. => true
  | _ => false

theorem isRow_rows (Γ : Scope) (e : Expr) : isRow Γ.rows e = (rowKey? Γ e).isSome := by
  cases e with
  | param p => exact Γ.ranges_rows p
  | _ => rfl

/-- Is a member of a row a navigation that is expanded? -/
def isExpandable (model : Model) (Δ : RowScope) (row : Expr) (name : String) : Bool :=
  match (row.type.entityName?.bind model.entity?).bind fun declaring =>
    declaring.navigation? name with
  | none => false
  | some n =>
    match n.cardinality with
    | .one => isRow Δ row
    | .many => true

/-- How many of the arguments are sources. -/
def sourceCount (args : List Expr) : Nat := args.countP fun a => (ArgShape.of a).isSource

/-- Which parameters of an operator's argument range over rows. -/
def argRanges (operator : String) (args : List Expr) (position : Nat) (arg : Expr) : Nat → Bool :=
  match ArgShape.of arg with
  | .lambda _ | .quotedLambda _ => fun i =>
    (boundSource? operator position i).any fun j => decide (j < sourceCount args)
  | _ => fun _ => false

theorem isSome_argSources {operator : String} {keys : List SourceKey} {args : List Expr}
    (hkeys : keys.length = sourceCount args) (position : Nat) (arg : Expr) :
    (fun i => (argSources operator keys position arg i).isSome) =
      argRanges operator args position arg := by
  -- Only the number of keys matters, not which they are.
  have hbound : ∀ i, ((boundSource? operator position i).bind (keys[·]?)).isSome =
      (boundSource? operator position i).any fun j => decide (j < sourceCount args) := by
    intro i
    rw [← hkeys]
    cases boundSource? operator position i with
    | none => rfl
    | some j =>
      rw [Bool.eq_iff_iff]
      simp
  unfold argSources argRanges
  cases ArgShape.of arg with
  | lambda | quotedLambda => exact funext hbound
  | _ => rfl

variable {model : Model} {Γ : Scope} {bound : Nat → Option SourceKey} {e r : Expr}

/-- In some state, the expansion gives this result. -/
def Expands (model : Model) (Γ : Scope) (bound : Nat → Option SourceKey) (e r : Expr) : Prop :=
  ∃ x key x', (expand model Γ bound e).Gives x (r, key) x'

theorem expands_of_gives {x x' : Expansion} {p : Expr × Option SourceKey}
    (h : (expand model Γ bound e).Gives x p x') : Expands model Γ bound e p.1 :=
  ⟨x, p.2, x', h⟩

theorem expands_traverse {x x' : Expansion} {p : Expr × Option SourceKey}
    (h : (do
      let e ← e.traverse fun c _ => Prod.fst <$> expand model Γ (fun _ => none) c
      return (e, none) : Step (Expr × Option SourceKey)).Gives x p x') :
    ∃ cs, List.Forall₂ (Expands model Γ fun _ => none) e.children cs ∧ p.1 = e.setChildren cs := by
  obtain ⟨node, t, hnode, h⟩ := gives_bind.mp h
  obtain ⟨rfl, rfl⟩ := gives_pure.mp h
  rw [traverse_eq, gives_map] at hnode
  obtain ⟨cs, hcs, rfl⟩ := hnode
  refine ⟨cs, hcs.forall₂ _ fun c _ t d t' hd => ?_, rfl⟩
  obtain ⟨q, hq, rfl⟩ := gives_map.mp hd
  exact expands_of_gives hq

theorem sourceRef_of_expandReference {key : SourceKey} {declaring : Entity}
    {n : QueryLowering.Navigation} {node : Expr} {x x' : Expansion}
    (h : (expandReference model key declaring n node).Gives x r x') :
    ∃ a entity, r = .sourceRef a entity := by
  obtain ⟨j, -, hr, -⟩ | ⟨parts, -, -, hr, -⟩ := expandReference_cases h
  · exact ⟨_, _, hr⟩
  · exact ⟨_, _, hr⟩

theorem method?_expandCollection {owner node : Expr} {declaring : Entity}
    {n : QueryLowering.Navigation} (h : expandCollection model owner declaring n node = .ok r) :
    ∃ m, r.method? = some m ∧ m.name = "Where" := by
  obtain ⟨tests, test, -, -, hcall⟩ := expandCollection_eq_ok h
  exact ⟨_, method?_callOperator hcall, rfl⟩

theorem Expands.quote {inner : Expr} (h : Expands model Γ bound (.quote inner) r) :
    ∃ inner', Expands model Γ bound inner inner' ∧ r = .quote inner' := by
  obtain ⟨x, key, x', h⟩ := h
  rw [expand] at h
  obtain ⟨p, t, hp, h⟩ := gives_bind.mp h
  cases (gives_pure.mp h).1
  exact ⟨p.1, expands_of_gives hp, rfl⟩

theorem Expands.lambda {params : List Param} {body : Expr}
    (h : Expands model Γ bound (.lambda params body) r) :
    ∃ body', Expands model (Γ.bind params bound) (fun _ => none) body body' ∧
      r = .lambda params body' := by
  obtain ⟨x, key, x', h⟩ := h
  rw [expand] at h
  obtain ⟨p, t, hp, h⟩ := gives_bind.mp h
  cases (gives_pure.mp h).1
  exact ⟨p.1, expands_of_gives hp, rfl⟩

/-- Anything but a quote, a lambda, a member or the call of an operator. -/
def isPlain : Expr → Bool
  | .call m _ args _ => (Operator.findFor? m args).isNone
  | .quote _ | .lambda .. | .member .. => false
  | _ => true

/-- A plain node has its children expanded. -/
theorem Expands.plain (h : Expands model Γ bound e r) (he : isPlain e = true) :
    ∃ cs, List.Forall₂ (Expands model Γ fun _ => none) e.children cs ∧ r = e.setChildren cs := by
  obtain ⟨x, key, x', h⟩ := h
  cases e with
  | call m receiver args type =>
    rw [expand_call (by simpa [isPlain] using he)] at h
    exact expands_traverse h
  | quote | lambda | member => cases he
  | _ =>
    rw [expand] at h
    · exact expands_traverse h
    all_goals
      intros
      contradiction

/-- A member of an expanded row stays if it is not expandable. Otherwise it becomes a reference to
a row, or a filter. -/
theorem Expands.member {row : Expr} {name : String} {type : DataType}
    (h : Expands model Γ bound (.member row name type) r) :
    ∃ row', Expands model Γ (fun _ => none) row row' ∧
      (isExpandable model Γ.rows row' name = false ∧ r = .member row' name type ∨
        (∃ a entity, r = .sourceRef a entity) ∨
        ∃ m, r.method? = some m ∧ m.name = "Where") := by
  obtain ⟨x, key, x', h⟩ := h
  rw [expand] at h
  obtain ⟨p, t, hp, h⟩ := gives_bind.mp h
  obtain ⟨r', t', hr, h⟩ := gives_bind.mp h
  cases (gives_pure.mp h).1
  refine ⟨p.1, expands_of_gives hp, ?_⟩
  -- Both definitions ask for the entity, the navigation and its cardinality in the same order.
  unfold expandMember at hr
  unfold isExpandable
  simp only at hr
  split at hr
  · rename_i hentity
    exact .inl ⟨by simp [hentity], (gives_pure.mp hr).1⟩
  rename_i declaring hentity
  split at hr
  · rename_i hnavigation
    exact .inl ⟨by simp [hentity, hnavigation], (gives_pure.mp hr).1⟩
  rename_i n hnavigation
  split at hr
  · exact .inr (.inl (sourceRef_of_expandReference hr))
  · rename_i hcardinality hkey
    exact .inl ⟨by simp [hentity, hnavigation, hcardinality, isRow_rows, hkey],
      (gives_pure.mp hr).1⟩
  · obtain ⟨hcollection, -⟩ := gives_ofExcept.mp hr
    exact .inr (.inr (method?_expandCollection hcollection))

section Operator

variable {m : Method} {receiver : Option Expr} {args : List Expr} {type : DataType}
  {x x' : Expansion} {source : Option (Expr × SourceKey)}

theorem argSources_of_isSource {operator : String} {keys : List SourceKey} {i : Nat}
    (h : (ArgShape.of e).isSource = true) : argSources operator keys i e = fun _ => none := by
  unfold argSources
  cases hshape : ArgShape.of e with
  | lambda | quotedLambda =>
    rw [hshape] at h
    cases h
  | _ => rfl

theorem expands_of_expandSource (h : (expandSource model Γ e).Gives x source x') :
    (∀ p ∈ source, Expands model Γ (fun _ => none) e p.1) ∧
      source.isSome = (ArgShape.of e).isSource := by
  unfold expandSource at h
  split at h
  · rename_i hsource
    obtain ⟨p, t, hp, h⟩ := gives_bind.mp h
    obtain ⟨q, t', hq, h⟩ := gives_bind.mp h
    cases (gives_pure.mp h).1
    have hsame : q.1 = p.1 := by
      obtain ⟨e', _ | key⟩ := p
      · obtain ⟨key, t, -, h⟩ := gives_bind.mp hq
        rw [(gives_pure.mp h).1]
      · rw [(gives_pure.mp hq).1]
    refine ⟨fun p' hp' => ?_, hsource.symm⟩
    cases hp'
    rw [hsame]
    exact expands_of_gives hp
  · rename_i hsource
    cases (gives_pure.mp h).1
    exact ⟨nofun, by simpa using hsource⟩

theorem expands_of_expandArg {operator : String} {keys : List SourceKey} {i : Nat}
    (hsource : ∀ p ∈ source, Expands model Γ (fun _ => none) e p.1)
    (hsome : source.isSome = (ArgShape.of e).isSource)
    (h : (expandArg model Γ operator keys i e source).Gives x r x') :
    Expands model Γ (argSources operator keys i e) e r := by
  rcases source with _ | ⟨s, key⟩
  · obtain ⟨p, t, hp, h⟩ := gives_bind.mp h
    cases (gives_pure.mp h).1
    exact expands_of_gives hp
  · cases (gives_pure.mp h).1
    rw [argSources_of_isSource hsome.symm]
    exact hsource _ rfl

theorem eq_attachAll_of_attachSource (h : (attachSource e source).Gives x r x') :
    ∃ joins, r = attachAll e joins := by
  rcases source with _ | ⟨s, key⟩
  · exact ⟨[], (gives_pure.mp h).1⟩
  · unfold attachSource attach at h
    have h := gives_modifyGet.mp h
    cases h
    exact ⟨_, rfl⟩

theorem zipIdx_eq_map_zip {sources : List (Option (Expr × SourceKey))}
    (h : args.length = sources.length) :
    args.zipIdx = (args.zip sources).zipIdx.map fun a => (a.1.1, a.2) := by
  conv => lhs; rw [← List.map_fst_zip (Nat.le_of_eq h), List.zipIdx_map]
  rfl

theorem length_keys {sources : List (Option (Expr × SourceKey))}
    (h : List.Forall₂ (fun a s => s.isSome = (ArgShape.of a).isSource) args sources) :
    (sources.filterMap fun s => s.map (·.2)).length = sourceCount args := by
  induction h with
  | nil => rfl
  | @cons a s args sources hs _ ih =>
    unfold sourceCount at ih ⊢
    rcases s with _ | ⟨e, key⟩
    · rw [List.filterMap_cons_none rfl, ih, List.countP_cons_of_neg (by simp [← hs])]
    · have hkey : (some (e, key)).map (·.2) = some key := rfl
      rw [List.filterMap_cons_some hkey, List.length_cons, ih,
        List.countP_cons_of_pos (by simp [← hs])]

/-- A call is rebuilt with other arguments, or it converts a deferred query and is left out. -/
theorem rebuild_cases {first key : Option SourceKey} {args' : List Expr}
    (hlen : args'.length = args.length)
    (h : (rebuild (.call m receiver args type) m.name args' first).Gives x (r, key) x') :
    (m.name = "AsQueryable" ∧ ∃ rest, args' = r :: rest) ∨
      (receiver = none ∧ r = .call m none args' type ∧
        ¬ (m.name = "AsQueryable" ∧ args'.head?.any fun a => a.type.isQueryable)) := by
  have hfinish : (rebuild.finish (.call m receiver args type) m.name args' first).Gives x (r, key) x' →
      receiver = none ∧ r = .call m none args' type := by
    intro h
    unfold rebuild.finish at h
    obtain ⟨node, t, hnode, h⟩ := gives_bind.mp h
    obtain ⟨key, t', -, h⟩ := gives_bind.mp h
    cases (gives_pure.mp h).1
    obtain ⟨hchildren, rfl⟩ := withChildren_eq_ok.mp (gives_ofExcept.mp hnode).1
    cases receiver with
    | none => exact ⟨rfl, rfl⟩
    | some receiver => simp [children, hlen] at hchildren
  unfold rebuild at h
  split at h
  · split at h
    · rename_i source rest hconverts
      cases (gives_pure.mp h).1
      exact .inl ⟨hconverts.1, rest, rfl⟩
    · rename_i hconverts
      exact .inr ⟨(hfinish h).1, (hfinish h).2, by simpa using hconverts⟩
  · exact .inr ⟨(hfinish h).1, (hfinish h).2, by simp⟩

/-- The arguments of an operator are expanded, each with parameters that range over the sources
among them, and get joins around them. The call is left out if it converts a deferred query. -/
theorem Expands.operator (h : Expands model Γ bound (.call m receiver args type) r)
    (hop : (Operator.findFor? m args).isSome = true) :
    ∃ keys args', keys.length = sourceCount args ∧
      List.Forall₂ (fun a a' => ∃ b, Expands model Γ (argSources m.name keys a.2 a.1) a.1 b ∧
        ∃ joins, a' = attachAll b joins) args.zipIdx args' ∧
      ((m.name = "AsQueryable" ∧ ∃ rest, args' = r :: rest) ∨
        (receiver = none ∧ r = .call m none args' type ∧
          ¬ (m.name = "AsQueryable" ∧ args'.head?.any fun a => a.type.isQueryable))) := by
  obtain ⟨x, key, x', h⟩ := h
  rw [expand_operator hop] at h
  obtain ⟨sources, t, hsources, h⟩ := gives_bind.mp h
  have hsource := hsources.forall₂ (fun a s =>
    (∀ p ∈ s, Expands model Γ (fun _ => none) a p.1) ∧ s.isSome = (ArgShape.of a).isSource)
    fun a _ t s t' hs => expands_of_expandSource hs
  obtain ⟨args₁, t₁, hargs₁, h⟩ := gives_bind.mp h
  set keys := sources.filterMap fun s => s.map (·.2)
  have hkeys : keys.length = sourceCount args := length_keys (hsource.imp fun _ _ hs => hs.2)
  have harg := hargs₁.forall₂ (fun a b => Expands model Γ (argSources m.name keys a.2 a.1.1) a.1.1 b)
    fun a ha t b t' hb =>
      have hs := List.forall₂_zip hsource (List.fst_mem_of_mem_zipIdx ha)
      expands_of_expandArg hs.1 hs.2 hb
  obtain ⟨args₂, t₂, hargs₂, h⟩ := gives_bind.mp h
  have hattach := hargs₂.forall₂ (fun b a' => ∃ joins, a' = attachAll b.1 joins)
    fun b _ t a' t' ha' => eq_attachAll_of_attachSource ha'
  -- The three traversals run over lists that carry the sources along; without these, they run over
  -- the arguments.
  have hlen := hsource.length_eq
  have hexpanded : List.Forall₂ (fun a b => Expands model Γ (argSources m.name keys a.2 a.1) a.1 b)
      args.zipIdx args₁ := by
    rw [zipIdx_eq_map_zip hlen, List.forall₂_map_left_iff]
    exact harg
  have hlen₁ : args.length = args₁.length := by simpa using hexpanded.length_eq
  have hattached : List.Forall₂ (fun b a' => ∃ joins, a' = attachAll b joins) args₁ args₂ := by
    rw [← List.map_fst_zip (Nat.le_of_eq (hlen₁.symm.trans hlen)), List.forall₂_map_left_iff]
    exact hattach
  exact ⟨keys, args₂, hkeys, forall₂_comp hexpanded hattached,
    rebuild_cases (hattached.length_eq.symm.trans hlen₁.symm) h⟩

end Operator

/-- How many joins stand around a source. An expansion neither takes a join off a source nor puts a
conversion around one. So it makes up neither for joins that are attached nor for a conversion that is
left out. -/
def joinDepth : Expr → Nat
  | .navigationJoin _ outer _ _ _ => 1 + joinDepth outer
  | _ => 0

theorem joinDepth_attachAll (e : Expr) (joins : List PendingJoin) :
    joinDepth (attachAll e joins) = joinDepth e + joins.length := by
  unfold attachAll
  induction joins generalizing e with
  | nil => rfl
  | cons j joins ih =>
    rw [List.foldl_cons, ih, joinDepth, List.length_cons]
    omega

theorem joinDepth_le_of_expands (h : Expands model Γ bound e r) : joinDepth e ≤ joinDepth r := by
  induction e using childInduction generalizing Γ bound r with
  | step e ih =>
    cases e with
    | navigationJoin label outer inner outerKey innerKey =>
      obtain ⟨cs, hcs, rfl⟩ := h.plain rfl
      have hlen := hcs.length_eq.symm
      obtain ⟨outer', inner', outerKey', innerKey', rfl⟩ := exists_of_length_four hlen
      obtain ⟨houter, -⟩ := List.forall₂_cons.mp hcs
      have hle := ih outer (by simp [children]) houter
      rw [setChildren, joinDepth, joinDepth]
      omega
    | _ =>
      rw [joinDepth]
      · exact Nat.zero_le _
      all_goals
        intros
        contradiction

/-- How many conversions to deferred queries stand around a source. -/
def conversionDepth : Expr → Nat
  | .call m _ (source :: _) _ => if m.name = "AsQueryable" then 1 + conversionDepth source else 0
  | _ => 0

theorem conversionDepth_of_method? (h : ∀ m ∈ e.method?, m.name ≠ "AsQueryable") :
    conversionDepth e = 0 := by
  unfold conversionDepth
  split
  · exact if_neg (h _ rfl)
  · rfl

theorem conversionDepth_call_le {m : Method} {receiver receiver' : Option Expr}
    {args args' : List Expr} {type : DataType}
    (h : List.Forall₂ (fun a a' => conversionDepth a' ≤ conversionDepth a) args args') :
    conversionDepth (.call m receiver' args' type) ≤
      conversionDepth (.call m receiver args type) := by
  cases h with
  | nil => exact Nat.le_refl _
  | @cons a a' rest rest' hhead htail =>
    rw [conversionDepth, conversionDepth]
    split
    · exact Nat.add_le_add_left hhead 1
    · exact Nat.le_refl _

theorem conversionDepth_attachAll_le (e : Expr) (joins : List PendingJoin) :
    conversionDepth (attachAll e joins) ≤ conversionDepth e := by
  unfold attachAll
  induction joins generalizing e with
  | nil => exact Nat.le_refl _
  | cons j joins ih =>
    refine Nat.le_trans (ih _) ?_
    rw [conversionDepth_of_method? (by simp [method?])]
    exact Nat.zero_le _

theorem conversionDepth_le_of_expands (h : Expands model Γ bound e r) :
    conversionDepth r ≤ conversionDepth e := by
  induction e using childInduction generalizing Γ bound r with
  | step e ih =>
    cases e with
    | call m receiver args type =>
      have harg : ∀ a ∈ args, a ∈ (Expr.call m receiver args type).children :=
        fun a ha => List.mem_append_right _ ha
      cases hop : (Operator.findFor? m args).isSome with
      | true =>
        obtain ⟨keys, args', -, hargs, hresult⟩ := h.operator hop
        have hdepth : List.Forall₂ (fun a a' => conversionDepth a' ≤ conversionDepth a)
            args args' := by
          rw [← List.zipIdx_map_fst 0 args, List.forall₂_map_left_iff]
          refine forall₂_imp_of_mem hargs fun a ha a' ha' => ?_
          obtain ⟨b, hb, joins, rfl⟩ := ha'
          exact Nat.le_trans (conversionDepth_attachAll_le b joins)
            (ih a.1 (harg _ (List.fst_mem_of_mem_zipIdx ha)) hb)
        rcases hresult with ⟨hname, rest, rfl⟩ | ⟨-, rfl, -⟩
        · -- The conversion is left out, and what it was put around is no deeper than before.
          cases hdepth with
          | @cons a _ _ _ hhead _ =>
            rw [conversionDepth, if_pos hname]
            omega
        · exact conversionDepth_call_le hdepth
      | false =>
        obtain ⟨cs, hcs, rfl⟩ := h.plain (by simpa [isPlain] using hop)
        have hdepth := forall₂_imp_of_mem hcs fun c hc d hd => ih c hc hd
        cases receiver with
        | none => exact conversionDepth_call_le hdepth
        | some receiver =>
          obtain ⟨receiver', args', -, hrest, rfl⟩ := List.forall₂_cons_left_iff.mp hdepth
          exact conversionDepth_call_le hrest
    | member row name type =>
      obtain ⟨row', -, ⟨-, rfl⟩ | ⟨a, entity, rfl⟩ | ⟨m, hm, hname⟩⟩ := h.member
      · exact Nat.le_of_eq (conversionDepth_of_method? (by simp [method?]))
      · exact Nat.le_of_eq (conversionDepth_of_method? (by simp [method?]))
      · rw [conversionDepth_of_method? (by simp [hm, hname])]
        exact Nat.zero_le _
    | quote inner =>
      obtain ⟨inner', -, rfl⟩ := h.quote
      exact Nat.le_of_eq (conversionDepth_of_method? (by simp [method?]))
    | lambda params body =>
      obtain ⟨body', -, rfl⟩ := h.lambda
      exact Nat.le_of_eq (conversionDepth_of_method? (by simp [method?]))
    | _ =>
      obtain ⟨cs, -, rfl⟩ := h.plain rfl
      rw [conversionDepth_of_method? (by rw [method?_setChildren]; simp [method?])]
      exact Nat.zero_le _

/-- The scope of a child: parameters of a lambda are added, and the lambdas among the arguments of an
operator are told which of their parameters range over rows. -/
def inner : RowScope × (Nat → Bool) → Expr → Nat → RowScope × (Nat → Bool)
  | place, .quote _, _ => place
  | (Δ, ranges), .lambda params _, _ => (Δ.bind params ranges, fun _ => false)
  | (Δ, _), .call m _ args _, i =>
    match Operator.findFor? m args, args[i]? with
    | some _, some arg => (Δ, argRanges m.name args i arg)
    | _, _ => (Δ, fun _ => false)
  | (Δ, _), _, _ => (Δ, fun _ => false)

/-- The node is no navigation that is expanded and no conversion that is left out, and if it calls
an operator, then without a receiver. -/
def SettledNode (model : Model) (Δ : RowScope) : Expr → Prop
  | .call m receiver args _ =>
    (Operator.findFor? m args).isSome = true → receiver = none ∧
      ¬ (m.name = "AsQueryable" ∧ args.head?.any fun a => a.type.isQueryable)
  | .member row name _ => isExpandable model Δ row name = false
  | _ => True

/-- Nothing in the tree is expanded or left out. -/
def Settled (model : Model) (Δ : RowScope) (ranges : Nat → Bool) (e : Expr) : Prop :=
  EverywhereIn inner (fun place n => SettledNode model place.1 n) (Δ, ranges) e

section SettledNodes

variable {Δ : RowScope} {ranges : Nat → Bool}

theorem settled_quote : Settled model Δ ranges (.quote e) ↔ Settled model Δ ranges e :=
  (everywhereIn_of_children_eq_singleton rfl).trans (and_iff_right trivial)

theorem settled_lambda {params : List Param} :
    Settled model Δ ranges (.lambda params e) ↔
      Settled model (Δ.bind params ranges) (fun _ => false) e :=
  (everywhereIn_of_children_eq_singleton rfl).trans (and_iff_right trivial)

theorem settled_member {name : String} {type : DataType} :
    Settled model Δ ranges (.member e name type) ↔
      isExpandable model Δ e name = false ∧ Settled model Δ (fun _ => false) e :=
  everywhereIn_of_children_eq_singleton rfl

theorem settled_plain (he : isPlain e = true) :
    Settled model Δ ranges e ↔ ∀ c ∈ e.children, Settled model Δ (fun _ => false) c := by
  have hnode : SettledNode model Δ e := by
    cases e with
    | call m receiver args type =>
      intro hop
      simp [Option.isNone_iff_eq_none.mp he] at hop
    | quote | lambda | member => cases he
    | _ => trivial
  have hinner : ∀ i, inner (Δ, ranges) e i = (Δ, fun _ => false) := by
    intro i
    cases e with
    | call m receiver args type => simp only [inner, Option.isNone_iff_eq_none.mp he]
    | quote | lambda | member => cases he
    | _ => rfl
  unfold Settled
  rw [everywhereIn_iff, and_iff_right hnode]
  simp only [hinner]
  constructor
  · intro h c hc
    obtain ⟨i, hi, rfl⟩ := List.getElem_of_mem hc
    exact h (e.children[i], i) (List.mem_zipIdx_iff_getElem?.mpr (List.getElem?_eq_getElem hi))
  · intro h c hc
    exact h c.1 (List.fst_mem_of_mem_zipIdx hc)

theorem settled_operator {m : Method} {receiver : Option Expr} {args : List Expr} {type : DataType}
    (hop : (Operator.findFor? m args).isSome = true) :
    Settled model Δ ranges (.call m receiver args type) ↔
      receiver = none ∧ ¬ (m.name = "AsQueryable" ∧ args.head?.any fun a => a.type.isQueryable) ∧
        ∀ a ∈ args.zipIdx, Settled model Δ (argRanges m.name args a.2 a.1) a.1 := by
  have hinner : ∀ a ∈ args.zipIdx, inner (Δ, ranges) (.call m receiver args type) a.2 =
      (Δ, argRanges m.name args a.2 a.1) := by
    intro a ha
    obtain ⟨op, hop⟩ := Option.isSome_iff_exists.mp hop
    simp only [inner, hop, List.mem_zipIdx_iff_getElem?.mp ha]
  unfold Settled
  rw [everywhereIn_iff]
  constructor
  · rintro ⟨hnode, hchildren⟩
    obtain ⟨rfl, hconverts⟩ := hnode hop
    refine ⟨rfl, hconverts, fun a ha => ?_⟩
    rw [← hinner a ha]
    exact hchildren a ha
  · rintro ⟨rfl, hconverts, hargs⟩
    refine ⟨fun _ => ⟨rfl, hconverts⟩, fun a ha => ?_⟩
    rw [hinner a ha]
    exact hargs a ha

end SettledNodes

/-- What an expansion gives back is settled. -/
theorem settled_of_expands (h : Expands model Γ bound e e) :
    Settled model Γ.rows (fun i => (bound i).isSome) e := by
  induction e using childInduction generalizing Γ bound with
  | step e ih =>
    have hplain : isPlain e = true → Settled model Γ.rows (fun i => (bound i).isSome) e := by
      intro he
      obtain ⟨cs, hcs, hset⟩ := h.plain he
      have hsame := eq_children_of_setChildren_eq hcs.length_eq.symm hset.symm
      subst hsame
      exact (settled_plain he).mpr fun c hc => ih c hc (List.forall₂_same.mp hcs c hc)
    cases e with
    | call m receiver args type =>
      cases hop : (Operator.findFor? m args).isSome with
      | true =>
        obtain ⟨keys, args', hkeys, hargs, ⟨hname, rest, rfl⟩ | ⟨rfl, heq, hconverts⟩⟩ :=
          h.operator hop
        · -- The call would come out of the source that it converts.
          cases args with
          | nil => cases hargs
          | cons source rest' =>
            obtain ⟨⟨b, hb, joins, heq⟩, -⟩ := List.forall₂_cons.mp hargs
            have hattach := conversionDepth_attachAll_le b joins
            have hexpand : conversionDepth b ≤ conversionDepth source :=
              conversionDepth_le_of_expands hb
            rw [← heq, conversionDepth, if_pos hname] at hattach
            omega
        · cases heq
          refine (settled_operator hop).mpr ⟨rfl, hconverts, fun a ha => ?_⟩
          -- An argument comes back as it was, so no join has been put around it.
          obtain ⟨b, hb, joins, heq⟩ := forall_mem_zipIdx_of_forall₂ hargs a ha
          have hdepth := joinDepth_le_of_expands hb
          rw [heq, joinDepth_attachAll] at hdepth
          have hjoins : joins = [] := List.length_eq_zero_iff.mp (by omega)
          subst hjoins
          rw [← isSome_argSources hkeys]
          refine ih a.1 (List.fst_mem_of_mem_zipIdx ha) ?_
          rw [show a.1 = b from heq] at hb ⊢
          exact hb
      | false => exact hplain (by simpa [isPlain] using hop)
    | quote body =>
      obtain ⟨body', hbody, heq⟩ := h.quote
      cases heq
      exact settled_quote.mpr (ih body (by simp [children]) hbody)
    | lambda params body =>
      obtain ⟨body', hbody, heq⟩ := h.lambda
      cases heq
      rw [settled_lambda, ← Scope.rows_bind]
      exact ih body (by simp [children]) hbody
    | member row name type =>
      obtain ⟨row', hrow, ⟨hnot, heq⟩ | ⟨a, entity, heq⟩ | ⟨m, hm, -⟩⟩ := h.member
      · cases heq
        exact settled_member.mpr ⟨hnot, ih row (by simp [children]) hrow⟩
      · cases heq
      · cases hm
    | _ => exact hplain rfl

/-- No join waits to be attached, and the metadata are these. -/
def Idle (metadata : Metadata) (x : Expansion) : Prop :=
  x.pending = [] ∧ x.state.metadata = metadata

section Idle

variable {metadata : Metadata} {x : Expansion}

theorem exists_gives_addRoot (element : DataType) (hx : Idle metadata x) :
    ∃ key x', (updateState fun s => s.addRoot element).Gives x key x' ∧ Idle metadata x' :=
  ⟨_, _, gives_modifyGet.mpr rfl, hx⟩

theorem exists_gives_asSource (key : Option SourceKey) (hx : Idle metadata x) :
    ∃ key' x', (asSource (e, key)).Gives x (e, key') x' ∧ Idle metadata x' := by
  cases key with
  | none =>
    obtain ⟨key', x', hkey', hx'⟩ := exists_gives_addRoot (e.type.element?.getD .null) hx
    exact ⟨key', x', gives_bind.mpr ⟨key', x', hkey', gives_pure.mpr ⟨rfl, rfl⟩⟩, hx'⟩
  | some key => exact ⟨key, x, gives_pure.mpr ⟨rfl, rfl⟩, hx⟩

theorem exists_gives_resultKey (name : String) (first : Option SourceKey) (hx : Idle metadata x) :
    ∃ key x', (resultKey name first e).Gives x key x' ∧ Idle metadata x' := by
  unfold resultKey
  split
  · exact ⟨first, x, gives_pure.mpr ⟨rfl, rfl⟩, hx⟩
  · split
    · rename_i element _
      obtain ⟨key, x', hkey, hx'⟩ := exists_gives_addRoot element hx
      exact ⟨some key, x', gives_map.mpr ⟨key, hkey, rfl⟩, hx'⟩
    · exact ⟨none, x, gives_pure.mpr ⟨rfl, rfl⟩, hx⟩

/-- A source to which no join is to be attached stays. -/
theorem exists_gives_attachSource (source : Option (Expr × SourceKey)) (hx : Idle metadata x) :
    ∃ x', (attachSource e source).Gives x e x' ∧ Idle metadata x' := by
  rcases source with _ | ⟨s, key⟩
  · exact ⟨x, gives_pure.mpr ⟨rfl, rfl⟩, hx⟩
  · refine ⟨x, gives_modifyGet.mpr ?_, hx⟩
    obtain ⟨state, pending⟩ := x
    obtain ⟨rfl, -⟩ := hx
    rfl

theorem exists_gives_rebuild {m : Method} {args : List Expr} (type : DataType)
    (first : Option SourceKey)
    (hconverts : ¬ (m.name = "AsQueryable" ∧ args.head?.any fun a => a.type.isQueryable))
    (hx : Idle metadata x) :
    ∃ key x', (rebuild (.call m none args type) m.name args first).Gives x
      (.call m none args type, key) x' ∧ Idle metadata x' := by
  have hfinish : ∃ key x', (rebuild.finish (.call m none args type) m.name args first).Gives x
      (.call m none args type, key) x' ∧ Idle metadata x' := by
    obtain ⟨key, x', hkey, hx'⟩ := exists_gives_resultKey (e := .call m none args type) m.name first hx
    refine ⟨key, x', ?_, hx'⟩
    unfold rebuild.finish
    refine gives_bind.mpr ⟨.call m none args type, x, gives_ofExcept.mpr ⟨?_, rfl⟩, ?_⟩
    · exact if_pos rfl
    · exact gives_bind.mpr ⟨key, x', hkey, gives_pure.mpr ⟨rfl, rfl⟩⟩
  unfold rebuild
  split
  · rename_i source rest
    rw [if_neg (by simpa using hconverts)]
    exact hfinish
  · exact hfinish

theorem exists_gives_expandSource
    (hexpand : (ArgShape.of e).isSource = true → ∀ t, Idle metadata t →
      ∃ key t', (expand model Γ (fun _ => none) e).Gives t (e, key) t' ∧ Idle metadata t')
    (hx : Idle metadata x) :
    ∃ source x', (expandSource model Γ e).Gives x source x' ∧
      ((∀ p ∈ source, p.1 = e) ∧ source.isSome = (ArgShape.of e).isSource) ∧ Idle metadata x' := by
  unfold expandSource
  split
  · rename_i hsource
    obtain ⟨key, t, hkey, ht⟩ := hexpand hsource x hx
    obtain ⟨key', t', hkey', ht'⟩ := exists_gives_asSource (e := e) key ht
    refine ⟨some (e, key'), t', ?_, ⟨?_, hsource.symm⟩, ht'⟩
    · exact gives_bind.mpr ⟨(e, key), t, hkey,
        gives_bind.mpr ⟨(e, key'), t', hkey', gives_pure.mpr ⟨rfl, rfl⟩⟩⟩
    · intro p hp
      cases hp
      rfl
  · rename_i hsource
    exact ⟨none, x, gives_pure.mpr ⟨rfl, rfl⟩, ⟨nofun, by simpa using hsource⟩, hx⟩

theorem exists_gives_expandArg {operator : String} {keys : List SourceKey} {i : Nat}
    {source : Option (Expr × SourceKey)} (hsource : ∀ p ∈ source, p.1 = e)
    (hexpand : ∀ t, Idle metadata t → ∃ key t',
      (expand model Γ (argSources operator keys i e) e).Gives t (e, key) t' ∧ Idle metadata t')
    (hx : Idle metadata x) :
    ∃ x', (expandArg model Γ operator keys i e source).Gives x e x' ∧ Idle metadata x' := by
  rcases source with _ | ⟨s, key⟩
  · obtain ⟨key, t, hkey, ht⟩ := hexpand x hx
    exact ⟨t, gives_bind.mpr ⟨(e, key), t, hkey, gives_pure.mpr ⟨rfl, rfl⟩⟩, ht⟩
  · cases hsource _ rfl
    exact ⟨x, gives_pure.mpr ⟨rfl, rfl⟩, hx⟩

theorem argRanges_of_isSource {operator : String} {args : List Expr} {i : Nat}
    (h : (ArgShape.of e).isSource = true) : argRanges operator args i e = fun _ => false := by
  unfold argRanges
  cases hshape : ArgShape.of e with
  | lambda | quotedLambda =>
    rw [hshape] at h
    cases h
  | _ => rfl

/-- An operator call is given back if its arguments are. -/
theorem exists_gives_expand_operator {m : Method} {args : List Expr} {type : DataType}
    (hop : (Operator.findFor? m args).isSome = true)
    (hconverts : ¬ (m.name = "AsQueryable" ∧ args.head?.any fun a => a.type.isQueryable))
    (hsettled : ∀ a ∈ args.zipIdx, Settled model Γ.rows (argRanges m.name args a.2 a.1) a.1)
    (hexpand : ∀ a ∈ args, ∀ bound t, Settled model Γ.rows (fun i => (bound i).isSome) a →
      Idle metadata t →
        ∃ key t', (expand model Γ bound a).Gives t (a, key) t' ∧ Idle metadata t')
    (hx : Idle metadata x) :
    ∃ key x', (expand model Γ bound (.call m none args type)).Gives x
      (.call m none args type, key) x' ∧ Idle metadata x' := by
  -- Each of the three traversals gives the arguments back and leaves the state idle.
  have hsourceStep : ∀ a ∈ args, ∀ t, Idle metadata t → ∃ s t', (expandSource model Γ a).Gives t s t' ∧
      ((∀ p ∈ s, p.1 = a) ∧ s.isSome = (ArgShape.of a).isSource) ∧ Idle metadata t' := by
    intro a ha t ht
    refine exists_gives_expandSource (fun hshape u hu => hexpand a ha _ u ?_ hu) ht
    obtain ⟨i, hi, rfl⟩ := List.getElem_of_mem ha
    have hmem : (args[i], i) ∈ args.zipIdx :=
      List.mem_zipIdx_iff_getElem?.mpr (List.getElem?_eq_getElem hi)
    simpa [argRanges_of_isSource hshape] using hsettled _ hmem
  obtain ⟨sources, t, hsources, hsource, ht⟩ := exists_gives_mapM hsourceStep hx
  set keys := sources.filterMap fun s => s.map (·.2)
  have hkeys : keys.length = sourceCount args := length_keys (hsource.imp fun _ _ hs => hs.2)
  have hlen := hsource.length_eq
  have hargStep : ∀ a ∈ (args.zip sources).zipIdx, ∀ t, Idle metadata t →
      ∃ t', (expandArg model Γ m.name keys a.2 a.1.1 a.1.2).Gives t a.1.1 t' ∧ Idle metadata t' := by
    intro a ha t ht
    have hzipped := List.fst_mem_of_mem_zipIdx ha
    have hs := List.forall₂_zip hsource hzipped
    refine exists_gives_expandArg hs.1
      (fun u hu => hexpand a.1.1 (List.of_mem_zip hzipped).1 _ u ?_ hu) ht
    rw [isSome_argSources hkeys]
    refine hsettled (a.1.1, a.2) ?_
    rw [zipIdx_eq_map_zip hlen]
    exact List.mem_map_of_mem ha
  obtain ⟨t₁, hargs₁, ht₁⟩ := exists_gives_mapM_map
    (fun a : (Expr × Option (Expr × SourceKey)) × Nat => a.1.1) hargStep ht
  have hattachStep : ∀ a ∈ args.zip sources, ∀ t, Idle metadata t →
      ∃ t', (attachSource a.1 a.2).Gives t a.1 t' ∧ Idle metadata t' :=
    fun a _ t ht => exists_gives_attachSource a.2 ht
  obtain ⟨t₂, hargs₂, ht₂⟩ := exists_gives_mapM_map Prod.fst hattachStep ht₁
  obtain ⟨key, x', hrebuild, hx'⟩ := exists_gives_rebuild type keys.head? hconverts ht₂
  refine ⟨key, x', ?_, hx'⟩
  -- What remains is to see the arguments in the lists that the traversals went through.
  have hargs₁' : (args.zip sources).zipIdx.map (fun a => a.1.1) = args := by
    conv => rhs; rw [← List.zipIdx_map_fst 0 args, zipIdx_eq_map_zip hlen, List.map_map]
    rfl
  rw [hargs₁'] at hargs₁
  rw [List.map_fst_zip (Nat.le_of_eq hlen)] at hargs₂
  rw [expand_operator hop]
  exact gives_bind.mpr ⟨sources, t, hsources, gives_bind.mpr ⟨args, t₁, hargs₁,
    gives_bind.mpr ⟨args, t₂, hargs₂, hrebuild⟩⟩⟩

theorem gives_expandMember {name : String} {type : DataType}
    (h : isExpandable model Γ.rows e name = false) :
    (expandMember model Γ e name type).Gives x (.member e name type) x := by
  unfold isExpandable at h
  unfold expandMember
  simp only
  split
  · exact gives_pure.mpr ⟨rfl, rfl⟩
  · rename_i declaring hdeclaring
    split
    · exact gives_pure.mpr ⟨rfl, rfl⟩
    · rename_i n hn
      rw [hdeclaring, Option.bind_some, hn] at h
      split
      · rename_i hone hkey
        simp [hone, isRow_rows, hkey] at h
      · exact gives_pure.mpr ⟨rfl, rfl⟩
      · rename_i hmany
        simp [hmany] at h

end Idle

/-- A settled tree is given back. -/
theorem Settled.exists_gives {metadata : Metadata} {x : Expansion} (Γ : Scope)
    (bound : Nat → Option SourceKey)
    (h : Settled model Γ.rows (fun i => (bound i).isSome) e) (hx : Idle metadata x) :
    ∃ key x', (expand model Γ bound e).Gives x (e, key) x' ∧ Idle metadata x' := by
  induction e using childInduction generalizing Γ bound x with
  | step e ih =>
    have hplain : isPlain e = true → ∀ x, Idle metadata x →
        ∃ x', (e.traverse fun c _ => Prod.fst <$> expand model Γ (fun _ => none) c).Gives x e x' ∧
          Idle metadata x' := by
      intro he x hx
      refine exists_gives_traverse (fun c hc t ht => ?_) hx
      obtain ⟨key, t', hkey, ht'⟩ := ih c hc Γ (fun _ => none) ((settled_plain he).mp h c hc) ht
      exact ⟨t', gives_map.mpr ⟨(c, key), hkey, rfl⟩, ht'⟩
    cases e with
    | call m receiver args type =>
      cases hop : (Operator.findFor? m args).isSome with
      | true =>
        obtain ⟨rfl, hconverts, hargs⟩ := (settled_operator hop).mp h
        exact exists_gives_expand_operator hop hconverts hargs
          (fun a ha bound t hsettled ht => ih a ha Γ bound hsettled ht) hx
      | false =>
        obtain ⟨x', hx', hidle⟩ := hplain (by simpa [isPlain] using hop) x hx
        rw [expand_call hop]
        exact ⟨none, x', gives_bind.mpr ⟨_, x', hx', gives_pure.mpr ⟨rfl, rfl⟩⟩, hidle⟩
    | quote body =>
      obtain ⟨key, x', hkey, hx'⟩ := ih body (by simp [children]) Γ bound (settled_quote.mp h) hx
      rw [expand]
      exact ⟨none, x', gives_bind.mpr ⟨(body, key), x', hkey, gives_pure.mpr ⟨rfl, rfl⟩⟩, hx'⟩
    | lambda params body =>
      rw [settled_lambda, ← Scope.rows_bind] at h
      obtain ⟨key, x', hkey, hx'⟩ := ih body (by simp [children]) (Γ.bind params bound)
        (fun _ => none) h hx
      rw [expand]
      exact ⟨none, x', gives_bind.mpr ⟨(body, key), x', hkey, gives_pure.mpr ⟨rfl, rfl⟩⟩, hx'⟩
    | member row name type =>
      obtain ⟨hnot, hrow⟩ := settled_member.mp h
      obtain ⟨key, x', hkey, hx'⟩ := ih row (by simp [children]) Γ (fun _ => none) hrow hx
      rw [expand]
      refine ⟨none, x', gives_bind.mpr ⟨(row, key), x', hkey, ?_⟩, hx'⟩
      exact gives_bind.mpr ⟨_, x', gives_expandMember hnot, gives_pure.mpr ⟨rfl, rfl⟩⟩
    | _ =>
      obtain ⟨x', hx', hidle⟩ := hplain rfl x hx
      rw [expand]
      · exact ⟨none, x', gives_bind.mpr ⟨_, x', hx', gives_pure.mpr ⟨rfl, rfl⟩⟩, hidle⟩
      all_goals
        intros
        contradiction

end QueryLowering.Pass.Navigation
