import Mathlib
import QueryLowering.Proofs.Placeholders

/-!
What extraction of literals makes of a query. The parameters are the literals of the query, numbered
from left to right; the shape has a placeholder where each of them stood, and is otherwise the query.
So shape and parameters together give the query back, unless the query has a parameter of its own
with one of the names that were given out.
-/

namespace QueryLowering.Literals

open QueryLowering.Expr

theorem paramName_injective {j k : Nat} (h : paramName j = paramName k) : j = k := by
  have htext : toString j = toString k := (String.append_right_inj "__p_").mp h
  have hdigits : Nat.toDigits 10 j = Nat.toDigits 10 k := by
    rw [← Nat.toList_repr, ← Nat.toList_repr]
    exact congrArg String.toList htext
  calc
    j = Nat.ofDigitChars 10 (Nat.toDigits 10 j) 0 := Nat.ofDigitChars_ten_toDigits.symm
    _ = Nat.ofDigitChars 10 (Nat.toDigits 10 k) 0 := by rw [hdigits]
    _ = k := Nat.ofDigitChars_ten_toDigits

/-- Is this a node that extraction replaces? -/
def isLiteralNode : Expr → Bool
  | .const v _ => isLiteral v
  | _ => false

/-- Is the child at a position left as it is? Of a marker call, all but the first are. -/
def skips : Expr → Nat → Bool
  | .call m .., i => (Marker.of? m).isSome && i != 0
  | _, _ => false

/-- The literals that are replaced in a tree, from left to right, with their types. -/
def extracted (e : Expr) : List (Constant Expr × DataType) :=
  match e with
  | .const v type => if isLiteral v then [(v, type)] else []
  | e => e.children.attach.zipIdx.flatMap fun c => if skips e c.2 then [] else extracted c.1.1
termination_by e
decreasing_by exact sizeOf_lt_of_mem_children c.1.2

theorem extracted_literal {v : Constant Expr} (hv : isLiteral v = true) (type : DataType) :
    extracted (.const v type) = [(v, type)] := by
  rw [extracted, if_pos hv]

theorem extracted_node {e : Expr} (h : isLiteralNode e = false) :
    extracted e =
      e.children.zipIdx.flatMap fun c => if skips e c.2 then [] else extracted c.1 := by
  rw [zipIdx_eq_map_attach, List.flatMap_map]
  cases e with
  | const v type =>
    rw [extracted, if_neg (by simpa [isLiteralNode] using h)]
    rfl
  | _ =>
    rw [extracted]
    intros
    contradiction

/-- Induction over expressions where literals are told apart from all other nodes. -/
@[elab_as_elim]
theorem literalInduction {P : Expr → Prop}
    (literal : ∀ v type, isLiteral v = true → P (.const v type))
    (node : ∀ e, isLiteralNode e = false → (∀ c ∈ e.children, P c) → P e) (e : Expr) : P e := by
  induction e using childInduction with
  | step e ih =>
    cases hliteral : isLiteralNode e with
    | true =>
      cases e with
      | const v type => exact literal v type hliteral
      | _ => cases hliteral
    | false => exact node e hliteral ih

theorem isLiteral_of_mem_extracted {e : Expr} {c : Constant Expr × DataType}
    (h : c ∈ extracted e) : isLiteral c.1 = true := by
  induction e using literalInduction with
  | literal v type hliteral =>
    rw [extracted_literal hliteral, List.mem_singleton] at h
    rw [h]
    exact hliteral
  | node e hliteral ih =>
    rw [extracted_node hliteral] at h
    obtain ⟨d, hd, h⟩ := List.mem_flatMap.mp h
    split at h
    · cases h
    · exact ih d.1 (List.fst_mem_of_mem_zipIdx hd) h

/-- Parameters for literals, with numbers from the given one on. -/
def numberedFrom (n : Nat) (literals : List (Constant Expr × DataType)) : List QueryParameter :=
  (literals.zipIdx n).map fun c => ⟨paramName c.2, c.1.1⟩

theorem length_numberedFrom (n : Nat) (literals : List (Constant Expr × DataType)) :
    (numberedFrom n literals).length = literals.length := by
  simp [numberedFrom]

theorem numberedFrom_append (n : Nat) (as bs : List (Constant Expr × DataType)) :
    numberedFrom n (as ++ bs) = numberedFrom n as ++ numberedFrom (n + as.length) bs := by
  unfold numberedFrom
  rw [List.zipIdx_append, List.map_append]

theorem getElem?_numberedFrom (literals : List (Constant Expr × DataType)) (k : Nat) :
    (numberedFrom 0 literals)[k]? = literals[k]?.map fun c => ⟨paramName k, c.1⟩ := by
  unfold numberedFrom
  rw [List.getElem?_map, List.getElem?_zipIdx, Option.map_map, Nat.zero_add]
  rfl

/-- A parameter is found by its name: no two have the same. -/
theorem find?_numberedFrom (n : Nat) (literals : List (Constant Expr × DataType)) (k : Nat) :
    ((numberedFrom n literals).find? fun q => q.name == paramName (n + k)) =
      literals[k]?.map fun c => ⟨paramName (n + k), c.1⟩ := by
  induction literals generalizing n k with
  | nil => rfl
  | cons c literals ih =>
    have hcons : numberedFrom n (c :: literals) =
        ⟨paramName n, c.1⟩ :: numberedFrom (n + 1) literals := rfl
    rw [hcons, List.find?_cons]
    cases k with
    | zero => simp
    | succ k =>
      have hne : (paramName n == paramName (n + (k + 1))) = false :=
        beq_false_of_ne fun h => by have := paramName_injective h; omega
      have hindex : n + (k + 1) = n + 1 + k := by omega
      rw [hne, hindex, ih (n + 1) k, List.getElem?_cons_succ]

theorem run_extractM_literal {v : Constant Expr} (hv : isLiteral v = true) (type : DataType)
    (ps : List QueryParameter) :
    (extractM (.const v type)).run ps =
      (.param ⟨paramName ps.length, type⟩, ps ++ [⟨paramName ps.length, v⟩]) := by
  rw [extractM, if_pos hv]
  rfl

/-- A node that is no literal is rebuilt from its children, of which some are not entered. -/
theorem extractM_node {e : Expr} (h : isLiteralNode e = false) :
    extractM e = e.setChildren <$> e.children.zipIdx.mapM fun c =>
      if skips e c.2 then pure c.1 else extractM c.1 := by
  have htraverse : e.traverse (fun c _ => extractM c) =
      e.setChildren <$> e.children.zipIdx.mapM fun c => extractM c.1 := by
    rw [traverse_eq]
    conv => lhs; rw [← List.zipIdx_map_fst 0 e.children, List.mapM_map]
    rfl
  cases e with
  | const v type =>
    rw [extractM, if_neg (by simpa [isLiteralNode] using h)]
    rfl
  | call m receiver args type =>
    rw [extractM, traverseIdx_eq]
    simp [skips]
  | _ =>
    rw [extractM]
    · exact htraverse
    all_goals
      intros
      contradiction

section Lists

variable {α β : Type} {run : α → StateM (List QueryParameter) β}
  {literals : α → List (Constant Expr × DataType)} {xs : List α}

/-- If every step appends the parameters for its literals, then all of them append the parameters
for all literals. -/
theorem snd_run_mapM
    (h : ∀ x ∈ xs, ∀ ps, ((run x).run ps).2 = ps ++ numberedFrom ps.length (literals x))
    (ps : List QueryParameter) :
    ((xs.mapM run).run ps).2 = ps ++ numberedFrom ps.length (xs.flatMap literals) := by
  induction xs generalizing ps with
  | nil => exact (List.append_nil ps).symm
  | cons x xs ih =>
    have hx := h x List.mem_cons_self ps
    have hxs := ih (fun y hy => h y (List.mem_cons_of_mem _ hy)) ((run x).run ps).2
    have hrun : (((x :: xs).mapM run).run ps).2 = ((xs.mapM run).run ((run x).run ps).2).2 := by
      rw [List.mapM_cons]
      rfl
    rw [hrun, hxs, hx, List.flatMap_cons, numberedFrom_append, List.length_append,
      length_numberedFrom, List.append_assoc]

/-- If every step relates its argument to its result, then the results are related one by one. The
steps may rely on where their literals stand in the list of all literals. -/
theorem fst_run_mapM {R : α → β → Prop} {all : List (Constant Expr × DataType)}
    (h : ∀ x ∈ xs, ∀ ps, ((run x).run ps).2 = ps ++ numberedFrom ps.length (literals x))
    (hR : ∀ x ∈ xs, ∀ ps : List QueryParameter, literals x <+: all.drop ps.length →
      R x ((run x).run ps).1)
    {ps : List QueryParameter} (hps : xs.flatMap literals <+: all.drop ps.length) :
    List.Forall₂ R xs ((xs.mapM run).run ps).1 := by
  induction xs generalizing ps with
  | nil => exact .nil
  | cons x xs ih =>
    obtain ⟨rest, hrest⟩ := hps
    rw [List.flatMap_cons, List.append_assoc] at hrest
    have hx : literals x <+: all.drop ps.length := ⟨_, hrest⟩
    have hlen : ((run x).run ps).2.length = ps.length + (literals x).length := by
      rw [h x List.mem_cons_self, List.length_append, length_numberedFrom]
    have hxs : xs.flatMap literals <+: all.drop ((run x).run ps).2.length := by
      refine ⟨rest, ?_⟩
      rw [hlen, ← List.drop_drop, ← hrest, List.drop_left]
    have hrun : (((x :: xs).mapM run).run ps).1 =
        ((run x).run ps).1 :: ((xs.mapM run).run ((run x).run ps).2).1 := by
      rw [List.mapM_cons]
      rfl
    rw [hrun]
    exact .cons (hR x List.mem_cons_self ps hx)
      (ih (fun y hy => h y (List.mem_cons_of_mem _ hy))
        (fun y hy => hR y (List.mem_cons_of_mem _ hy)) hxs)

end Lists

theorem snd_run_extractM (e : Expr) (ps : List QueryParameter) :
    ((extractM e).run ps).2 = ps ++ numberedFrom ps.length (extracted e) := by
  induction e using literalInduction generalizing ps with
  | literal v type hliteral =>
    rw [run_extractM_literal hliteral, extracted_literal hliteral]
    rfl
  | node e hliteral ih =>
    rw [extractM_node hliteral, extracted_node hliteral]
    refine snd_run_mapM (fun c hc ps => ?_) ps
    split
    · exact (List.append_nil ps).symm
    · exact ih c.1 (List.fst_mem_of_mem_zipIdx hc) ps

/-- Induction along the extraction, for a relation of queries and shapes: a literal becomes the
placeholder with its number in the list of all literals, and a node is rebuilt from the shapes of its
children and from the children that are not entered. -/
theorem extractM_induction {P : Expr → Expr → Prop} {all : List (Constant Expr × DataType)}
    (literal : ∀ k v type, isLiteral v = true → all[k]? = some (v, type) →
      P (.const v type) (.param ⟨paramName k, type⟩))
    (node : ∀ e cs, isLiteralNode e = false →
      List.Forall₂ (fun c d => if skips e c.2 then d = c.1 else P c.1 d) e.children.zipIdx cs →
        P e (e.setChildren cs))
    (e : Expr) (ps : List QueryParameter) (h : extracted e <+: all.drop ps.length) :
    P e ((extractM e).run ps).1 := by
  induction e using literalInduction generalizing ps with
  | literal v type hliteral =>
    -- There are as many parameters so far as literals stand before this one.
    rw [extracted_literal hliteral] at h
    obtain ⟨rest, hrest⟩ := h
    have hk : all[ps.length]? = some (v, type) := by
      have hhead := congrArg List.head? hrest
      rw [List.head?_drop] at hhead
      exact hhead.symm
    rw [run_extractM_literal hliteral]
    exact literal ps.length v type hliteral hk
  | node e hliteral ih =>
    rw [extracted_node hliteral] at h
    rw [extractM_node hliteral]
    refine node e _ hliteral (fst_run_mapM (fun c _ ps => ?_) (fun c hc ps hps => ?_) h)
    · split
      · exact (List.append_nil ps).symm
      · exact snd_run_extractM c.1 ps
    · split
      · rfl
      · rename_i hskips
        rw [if_neg hskips] at hps
        exact ih c.1 (List.fst_mem_of_mem_zipIdx hc) ps hps

/-- The parameters of a query are its literals, numbered from left to right. -/
theorem extract_parameters (e : Expr) : (extract e).2 = numberedFrom 0 (extracted e) :=
  snd_run_extractM e []

/-- The case of the induction for a whole query. -/
theorem extract_induction {P : Expr → Expr → Prop} (e : Expr)
    (literal : ∀ k v type, isLiteral v = true → (extracted e)[k]? = some (v, type) →
      P (.const v type) (.param ⟨paramName k, type⟩))
    (node : ∀ e cs, isLiteralNode e = false →
      List.Forall₂ (fun c d => if skips e c.2 then d = c.1 else P c.1 d) e.children.zipIdx cs →
        P e (e.setChildren cs)) : P e (extract e).1 :=
  extractM_induction literal node e [] (List.prefix_refl _)

theorem extracted_eq_nil {e : Expr} (h : e.Everywhere fun n => isLiteralNode n = false) :
    extracted e = [] := by
  induction e using childInduction with
  | step e ih =>
    rw [extracted_node h.root, List.flatMap_eq_nil_iff]
    intro c hc
    have hmem := List.fst_mem_of_mem_zipIdx hc
    split
    · rfl
    · exact ih c.1 hmem (h.child hmem)

/-- A query from which nothing is extracted is its own shape. -/
theorem extract_eq_of_extracted_eq_nil {e : Expr} (h : extracted e = []) :
    extract e = (e, []) := by
  have hparameters : (extract e).2 = [] := by
    rw [extract_parameters, h]
    rfl
  refine Prod.ext ?_ hparameters
  refine extract_induction (P := fun x shape => shape = x) e (fun k v type _ hk => ?_)
    fun x cs _ hcs => ?_
  · rw [h] at hk
    cases hk
  · have hchildren : List.Forall₂ (fun c d => c.1 = d) x.children.zipIdx cs :=
      hcs.imp fun c d hd => by
        split at hd
        · exact hd.symm
        · exact hd.symm
    rw [← List.forall₂_map_left_iff (f := Prod.fst), List.zipIdx_map_fst,
      List.forall₂_eq_eq_eq] at hchildren
    rw [← hchildren, setChildren_children]

/-- A query without literals is its own shape. -/
theorem extract_eq_self {e : Expr} (h : e.Everywhere fun n => isLiteralNode n = false) :
    extract e = (e, []) :=
  extract_eq_of_extracted_eq_nil (extracted_eq_nil h)

/-- The literal that a parameter stands for, if it has the name of one of the given parameters. -/
def restoring (ps : List QueryParameter) (p : Param) : Option Expr :=
  (ps.find? fun q => q.name == p.name).map fun q => .const q.value p.type

/-- Puts the values of parameters for the parameters. -/
def restore (ps : List QueryParameter) (e : Expr) : Expr := e.fill (restoring ps)

theorem restoring_extract {e : Expr} {p : Param} {k : Nat} (hp : p.name = paramName k) :
    restoring (extract e).2 p = (extracted e)[k]?.map fun c => .const c.1 p.type := by
  have hfind := find?_numberedFrom 0 (extracted e) k
  rw [Nat.zero_add] at hfind
  unfold restoring
  rw [extract_parameters, hp, hfind, Option.map_map]
  rfl

theorem exists_of_restoring {e x : Expr} {p : Param}
    (h : restoring (extract e).2 p = some x) :
    ∃ k v type, p.name = paramName k ∧ (extracted e)[k]? = some (v, type) ∧
      x = .const v p.type := by
  obtain ⟨q, hq, -⟩ := Option.map_eq_some_iff.mp h
  have hmem : q ∈ numberedFrom 0 (extracted e) := by
    rw [← extract_parameters]
    exact List.mem_of_find?_eq_some hq
  have hname : q.name = p.name := by simpa using List.find?_some hq
  obtain ⟨c, -, rfl⟩ := List.mem_map.mp hmem
  have hp : p.name = paramName c.2 := hname.symm
  rw [restoring_extract hp] at h
  obtain ⟨d, hd, hx⟩ := Option.map_eq_some_iff.mp h
  exact ⟨c.2, d.1, d.2, hp, hd, hx.symm⟩

/-- The literals of a query may be filled in for its placeholders. -/
theorem standIns_restoring (e : Expr) : StandIns (restoring (extract e).2) := by
  intro p x h
  obtain ⟨k, v, type, hp, hk, rfl⟩ := exists_of_restoring h
  have hv : isLiteral v = true := isLiteral_of_mem_extracted (List.mem_of_getElem? hk)
  exact ⟨⟨k, hp⟩, .inl ⟨v, hv, rfl⟩⟩

/-- The names that a tree refers to are all different from those of the first parameters. -/
def Avoids (n : Nat) (e : Expr) : Prop :=
  ∀ p, .param p ∈ e.nodes → ∀ k < n, p.name ≠ paramName k

theorem Avoids.child {n : Nat} {e c : Expr} (h : Avoids n e) (hc : c ∈ e.children) :
    Avoids n c := by
  intro p hp
  refine h p ?_
  rw [nodes_eq]
  exact List.mem_cons_of_mem _ (List.mem_flatMap.mpr ⟨c, hc, hp⟩)

theorem Avoids.fill_eq_self {e x : Expr} (h : Avoids (extracted e).length x) :
    x.fill (restoring (extract e).2) = x := by
  refine Expr.fill_eq_self fun p hp => ?_
  by_contra hne
  obtain ⟨y, hy⟩ := Option.ne_none_iff_exists'.mp hne
  obtain ⟨k, v, type, hname, hk, -⟩ := exists_of_restoring hy
  exact h p hp k (List.getElem?_eq_some_iff.mp hk).1 hname

theorem avoids_of_unreserved {e : Expr} (h : e.Unreserved) (n : Nat) : Avoids n e := by
  intro p hp k _ hname
  have hparam : (Expr.param p).Unreserved := h.everywhere (.param p) hp
  exact hparam.param ⟨k, hname⟩

/-- A query that does not refer to the names given out is got back from shape and parameters. -/
theorem restore_extract {e : Expr} (h : Avoids (extracted e).length e) :
    restore (extract e).2 (extract e).1 = e := by
  revert h
  refine extract_induction (P := fun x shape => Avoids (extracted e).length x →
    shape.fill (restoring (extract e).2) = x) e (fun k v type _ hk _ => ?_)
    fun x cs _ hcs havoids => ?_
  · have hname : (⟨paramName k, type⟩ : Param).name = paramName k := rfl
    rw [fill_param, restoring_extract hname, hk]
    rfl
  · have hlen : cs.length = x.children.length := by simpa using hcs.length_eq.symm
    by_cases hparam : ∃ p, x = .param p
    · obtain ⟨p, rfl⟩ := hparam
      exact havoids.fill_eq_self
    -- The children are got back, so the node is.
    have hchildren : cs.map (fill (restoring (extract e).2)) = x.children := by
      rw [← List.zipIdx_map_fst 0 x.children, ← List.forall₂_eq_eq_eq, List.forall₂_map_left_iff,
        List.forall₂_map_right_iff]
      refine (forall₂_imp_of_mem hcs fun c hc d hd => ?_).flip
      have havoids' := havoids.child (List.fst_mem_of_mem_zipIdx hc)
      split at hd
      · rw [hd]
        exact havoids'.fill_eq_self
      · exact hd havoids'
    have hne : ∀ p, x.setChildren cs ≠ .param p :=
      fun p hp => hparam ⟨p, eq_param_of_setChildren hp⟩
    rw [fill_node hne, children_setChildren hlen, hchildren, setChildren_setChildren hlen rfl,
      setChildren_children]

theorem skipped_self (x : Expr) :
    List.Forall₂ (fun c d => skips x c.2 = true → d = c.1) x.children.zipIdx x.children := by
  conv => rhs; rw [← List.zipIdx_map_fst 0 x.children]
  exact List.forall₂_map_right_iff.mpr (List.forall₂_same.mpr fun _ _ _ => rfl)

/-- What holds of the placeholders for literals, and of nodes whose skipped children have stayed,
holds of all nodes of the shape of a query without reserved names. -/
theorem everywhere_extract {Q : Expr → Prop} {e : Expr} (he : e.Unreserved)
    (literal : ∀ k v type, (extracted e)[k]? = some (v, type) → Q (.param ⟨paramName k, type⟩))
    (node : ∀ (x : Expr) (cs : List Expr), x.Unreserved →
      List.Forall₂ (fun c d => skips x c.2 = true → d = c.1) x.children.zipIdx cs →
        Q (x.setChildren cs)) : (extract e).1.Everywhere Q := by
  have hkept : ∀ x : Expr, x.Unreserved → x.Everywhere Q := by
    intro x hx
    induction x using childInduction with
    | step x ih =>
      refine everywhere_iff.mpr ⟨?_, fun c hc => ih c hc (hx.child hc)⟩
      have hroot := node x x.children hx (skipped_self x)
      rwa [setChildren_children] at hroot
  revert he
  refine extract_induction (P := fun x shape => x.Unreserved → shape.Everywhere Q) e
    (fun k v type _ hk _ => ?_) fun x cs _ hcs hx => ?_
  · exact everywhere_of_leaf rfl (literal k v type hk)
  · have hlen : cs.length = x.children.length := by simpa using hcs.length_eq.symm
    refine everywhere_iff.mpr ⟨node x cs hx (hcs.imp fun c d hd hskips => ?_), ?_⟩
    · rwa [if_pos hskips] at hd
    · rw [children_setChildren hlen]
      refine forall_mem_of_forall₂ hcs fun c hc d hd => ?_
      have hchild : c.1.Unreserved := hx.child (List.fst_mem_of_mem_zipIdx hc)
      split at hd
      · rw [hd]
        exact hkept c.1 hchild
      · exact hd hchild

theorem clean_extract {e : Expr} (he : e.Unreserved) : (extract e).1.Clean :=
  everywhere_extract he (fun _ _ _ _ => trivial)
    fun x cs hx _ => hygienic_setChildren x cs hx.clean.root

/-- A placeholder of a shape has the number and the type of a literal of the query. -/
theorem exists_literal_of_placeholder {e : Expr} (he : e.Unreserved) {p : Param}
    (hmem : .param p ∈ (extract e).1.nodes) (hp : Reserved p.name) :
    ∃ k v, p.name = paramName k ∧ (extracted e)[k]? = some (v, p.type) := by
  have hall : (extract e).1.Everywhere fun n => ∀ p, n = .param p → Reserved p.name →
      ∃ k v, p.name = paramName k ∧ (extracted e)[k]? = some (v, p.type) := by
    refine everywhere_extract he (fun k v type hk p hp _ => ?_) fun x cs hx _ p hp hreserved => ?_
    · cases hp
      exact ⟨k, v, rfl, hk⟩
    · -- A parameter that was there before has no reserved name.
      rw [eq_param_of_setChildren hp] at hx
      exact absurd hreserved hx.param
  exact hall (.param p) hmem p rfl hp

/-- Does the node refer to one of the names of the first parameters? -/
def isGivenOut (n : Nat) : Expr → Bool
  | .param p => (List.range n).any fun k => p.name == paramName k
  | _ => false

theorem isGivenOut_setChildren (n : Nat) (e : Expr) (cs : List Expr) :
    isGivenOut n (e.setChildren cs) = isGivenOut n e := by
  unfold setChildren
  split <;> rfl

theorem avoids_iff_countP {n : Nat} {e : Expr} :
    Avoids n e ↔ e.nodes.countP (isGivenOut n) = 0 := by
  rw [List.countP_eq_zero]
  constructor
  · intro h x hx hgiven
    cases x with
    | param p =>
      obtain ⟨k, hk, hname⟩ := List.any_eq_true.mp hgiven
      exact h p hx k (List.mem_range.mp hk) (beq_iff_eq.mp hname)
    | _ => cases hgiven
  · intro h p hp k hk hname
    refine h (.param p) hp (List.any_eq_true.mpr ⟨k, List.mem_range.mpr hk, ?_⟩)
    exact beq_iff_eq.mpr hname

theorem countP_nodes (n : Nat) (e : Expr) :
    e.nodes.countP (isGivenOut n) = (if isGivenOut n e = true then 1 else 0) +
      (e.children.map fun c => c.nodes.countP (isGivenOut n)).sum := by
  rw [nodes_eq, List.countP_cons, List.countP_flatMap, Nat.add_comm]
  rfl

/-- A shape refers to the names given out once for each literal, besides where the query does. -/
theorem countP_extract (e : Expr) :
    (extract e).1.nodes.countP (isGivenOut (extracted e).length) =
      (extracted e).length + e.nodes.countP (isGivenOut (extracted e).length) := by
  generalize hn : (extracted e).length = n
  refine (extract_induction (P := fun x shape => shape.nodes.countP (isGivenOut n) =
    (extracted x).length + x.nodes.countP (isGivenOut n)) e (fun k v type hv hk => ?_)
    fun x cs hliteral hcs => ?_).trans (by rw [hn])
  · have hlt : k < n := hn ▸ (List.getElem?_eq_some_iff.mp hk).1
    have hgiven : isGivenOut n (.param ⟨paramName k, type⟩) = true :=
      List.any_eq_true.mpr ⟨k, List.mem_range.mpr hlt, beq_self_eq_true _⟩
    rw [extracted_literal hv, countP_nodes, countP_nodes, if_pos hgiven]
    rfl
  · have hlen : cs.length = x.children.length := by simpa using hcs.length_eq.symm
    -- The children add up, and the node itself is counted on both sides alike.
    have hsum : ∀ {kids : List (Expr × Nat)} {ds : List Expr},
        List.Forall₂ (fun c d => if skips x c.2 = true then d = c.1 else
          d.nodes.countP (isGivenOut n) =
            (extracted c.1).length + c.1.nodes.countP (isGivenOut n)) kids ds →
        (ds.map fun d => d.nodes.countP (isGivenOut n)).sum =
          (kids.flatMap fun c => if skips x c.2 = true then [] else extracted c.1).length +
            ((kids.map Prod.fst).map fun c => c.nodes.countP (isGivenOut n)).sum := by
      intro kids ds h
      induction h with
      | nil => rfl
      | @cons c d kids ds hcd _ ih =>
        rw [List.map_cons, List.sum_cons, List.flatMap_cons, List.length_append, List.map_cons,
          List.map_cons, List.sum_cons, ih]
        split at hcd
        · rename_i hskips
          rw [hcd, if_pos hskips, List.length_nil]
          omega
        · rename_i hskips
          rw [hcd, if_neg hskips]
          omega
    have hchildren := hsum hcs
    rw [List.zipIdx_map_fst, ← extracted_node hliteral] at hchildren
    rw [countP_nodes, children_setChildren hlen, isGivenOut_setChildren, hchildren, countP_nodes]
    omega

/-- A query that does not refer to the names given out for its own literals is told from every other
query by its shape and its parameters. -/
theorem eq_of_extract_eq {a b : Expr}
    (ha : ∀ p, .param p ∈ a.nodes → ∀ k < (extract a).2.length, p.name ≠ paramName k)
    (h : extract a = extract b) : a = b := by
  have hlength : ∀ e, (extract e).2.length = (extracted e).length := by
    intro e
    rw [extract_parameters, length_numberedFrom]
  have hn : (extracted b).length = (extracted a).length := by
    rw [← hlength, ← hlength, h]
  rw [hlength] at ha
  have ha : Avoids (extracted a).length a := ha
  -- Both shapes are the same, so the other query has no room for such a name either.
  have hcount : a.nodes.countP (isGivenOut (extracted a).length) =
      b.nodes.countP (isGivenOut (extracted a).length) := by
    have hcountA := countP_extract a
    have hcountB := countP_extract b
    rw [hn, ← h] at hcountB
    omega
  have hb : Avoids (extracted b).length b := by
    rw [hn, avoids_iff_countP, ← hcount]
    exact avoids_iff_countP.mp ha
  calc
    a = restore (extract a).2 (extract a).1 := (restore_extract ha).symm
    _ = restore (extract b).2 (extract b).1 := by rw [h]
    _ = b := restore_extract hb

/-- A sum of a parameter and five. -/
def paramPlusFive (name : String) : Expr :=
  .binary .add (.param ⟨name, .int32⟩) (.literal (.int32 5))

/-- The same sum the other way round. -/
def fivePlusParam (name : String) : Expr :=
  .binary .add (.literal (.int32 5)) (.param ⟨name, .int32⟩)

theorem eq_of_extract_eq_paramPlusFive :
    paramPlusFive "x" =
      restore (extract (paramPlusFive "x")).2 (extract (paramPlusFive "x")).1 := by
  have hx : ¬ Reserved "x" := not_reserved (by decide)
  refine eq_of_extract_eq (fun p hp k _ hname => hx ⟨k, ?_⟩) (by cbv)
  have hp : p = ⟨"x", .int32⟩ := by
    simpa [paramPlusFive, nodes_eq, children, Expr.literal] using hp
  rw [← hname, hp]

/-- With a parameter of a name that is given out, the two sums are not told apart: in the shape, the
parameter and the placeholder for the literal look the same. -/
theorem extract_paramPlusFive_eq :
    extract (paramPlusFive "__p_0") = extract (fivePlusParam "__p_0") ∧
      paramPlusFive "__p_0" ≠ fivePlusParam "__p_0" := by
  refine ⟨by cbv, ?_⟩
  intro h
  cases h

end QueryLowering.Literals
