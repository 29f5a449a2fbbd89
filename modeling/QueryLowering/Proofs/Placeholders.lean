import QueryLowering.Literals
import QueryLowering.Proofs.Agreement
import QueryLowering.Proofs.Everywhere

/-!
Placeholders: parameters with names that the extraction of literals gives out. Something else of the
same type, a literal or another placeholder, may be filled in for them. Filling in commutes with all
that is read off a tree and all that is built from one, as long as no lambda of the tree binds a
placeholder.
-/

namespace QueryLowering

/-- The name is one that extraction gives to a parameter. -/
def Literals.Reserved (name : String) : Prop := ∃ k, name = paramName k

open Literals

/-- Reserved names begin with an underscore. -/
theorem Literals.not_reserved {name : String} (h : name.toList.head? ≠ some '_') :
    ¬ Reserved name := by
  rintro ⟨k, rfl⟩
  simp [paramName] at h

theorem Literals.ne_of_reserved {p q : Param} (hp : Reserved p.name) (hq : ¬ Reserved q.name) :
    p ≠ q := fun h => hq (h ▸ hp)

/-- No parameter that a scope binds has a reserved name. -/
def Literals.BindsUnreserved {α : Type} (Γ : List (Param × α)) : Prop :=
  ∀ b ∈ Γ, ¬ Reserved b.1.name

theorem Literals.BindsUnreserved.bind {α : Type} {Γ : List (Param × α)} (hΓ : BindsUnreserved Γ)
    {params : List Param} (hparams : ∀ p ∈ params, ¬ Reserved p.name) (g : Param × Nat → α) :
    BindsUnreserved ((params.zipIdx.map fun p => (p.1, g p)).reverse ++ Γ) := by
  intro b hb
  rcases List.mem_append.mp hb with hb | hb
  · obtain ⟨p, hp, rfl⟩ := List.mem_map.mp (List.mem_reverse.mp hb)
    exact hparams p.1 (List.fst_mem_of_mem_zipIdx hp)
  · exact hΓ b hb

theorem Literals.BindsUnreserved.find?_eq_none {α : Type} {Γ : List (Param × α)}
    (hΓ : BindsUnreserved Γ) {p : Param} (hp : Reserved p.name) :
    (Γ.find? fun b => b.1.name == p.name) = none := by
  refine List.find?_eq_none.mpr fun b hb hname => hΓ b hb ?_
  rw [beq_iff_eq.mp hname]
  exact hp

namespace Expr

/-- The children of a node, and the body of a delegate. -/
def parts : Expr → List Expr
  | const (.delegate _ (some body)) _ => [body]
  | e => e.children

theorem sizeOf_lt_of_mem_parts {c e : Expr} (h : c ∈ e.parts) : sizeOf c < sizeOf e := by
  unfold parts at h
  split at h
  · cases List.mem_singleton.mp h
    simp only [const.sizeOf_spec, Constant.delegate.sizeOf_spec, Option.some.sizeOf_spec]
    omega
  · exact sizeOf_lt_of_mem_children h

theorem mem_parts_of_mem_children {c e : Expr} (h : c ∈ e.children) : c ∈ e.parts := by
  unfold parts
  split
  · exact absurd h List.not_mem_nil
  · exact h

/-- The names that a node mentions by itself. -/
def ownNames : Expr → List String
  | param p => [p.name]
  | lambda params _ => params.map Param.name
  | _ => []

/-- The names of all parameters of a tree: those that are referred to, those that lambdas bind, and
those in bodies of delegates. -/
def names (e : Expr) : List String := e.ownNames ++ e.parts.attach.flatMap fun c => names c.1
termination_by e
decreasing_by exact sizeOf_lt_of_mem_parts c.2

theorem names_eq (e : Expr) : e.names = e.ownNames ++ e.parts.flatMap names := by
  rw [names]
  simp

/-- No parameter of the tree has a reserved name. -/
def Unreserved (e : Expr) : Prop := ∀ name ∈ e.names, ¬ Reserved name

theorem unreserved_of_names {e : Expr} {names : List String} (hnames : e.names = names)
    (h : ∀ name ∈ names, name.toList.head? ≠ some '_') : e.Unreserved := by
  intro name hname
  rw [hnames] at hname
  exact not_reserved (h name hname)

theorem unreserved_iff {e : Expr} :
    e.Unreserved ↔ (∀ name ∈ e.ownNames, ¬ Reserved name) ∧ ∀ c ∈ e.parts, c.Unreserved := by
  unfold Unreserved
  rw [names_eq]
  simp only [List.mem_append, List.mem_flatMap]
  constructor
  · intro h
    exact ⟨fun name hname => h name (.inl hname),
      fun c hc name hname => h name (.inr ⟨c, hc, hname⟩)⟩
  · rintro ⟨hown, hparts⟩ name (hname | ⟨c, hc, hname⟩)
    · exact hown name hname
    · exact hparts c hc name hname

theorem Unreserved.child {e c : Expr} (h : e.Unreserved) (hc : c ∈ e.children) : c.Unreserved :=
  (unreserved_iff.mp h).2 c (mem_parts_of_mem_children hc)

theorem Unreserved.everywhere {e : Expr} (h : e.Unreserved) : e.Everywhere Unreserved := by
  induction e using childInduction with
  | step e ih => exact everywhere_iff.mpr ⟨h, fun c hc => ih c hc (h.child hc)⟩

theorem Unreserved.param {p : Param} (h : (param p).Unreserved) : ¬ Reserved p.name :=
  (unreserved_iff.mp h).1 p.name (by simp [ownNames])

/-- The node binds no placeholder, and hides none in the body of a delegate. -/
def Hygienic : Expr → Prop
  | lambda params _ => ∀ p ∈ params, ¬ Reserved p.name
  | const (.delegate _ (some body)) _ => body.Unreserved
  | _ => True

/-- All nodes are hygienic: placeholders occur freely and in the open. -/
def Clean (e : Expr) : Prop := e.Everywhere Hygienic

theorem hygienic_setChildren (e : Expr) (cs : List Expr) (h : e.Hygienic) :
    (e.setChildren cs).Hygienic := by
  unfold setChildren
  split <;> exact h

theorem Unreserved.clean {e : Expr} (h : e.Unreserved) : e.Clean := by
  induction e using childInduction with
  | step e ih =>
    refine everywhere_iff.mpr ⟨?_, fun c hc => ih c hc (h.child hc)⟩
    obtain ⟨hown, hparts⟩ := unreserved_iff.mp h
    unfold Hygienic
    split
    · intro p hp
      exact hown p.name (List.mem_map_of_mem hp)
    · exact hparts _ (List.mem_singleton.mpr rfl)
    · trivial

section Clean

variable {e l r : Expr} {args : List Expr}

@[simp] theorem clean_param (p : Param) : (param p).Clean := everywhere_of_leaf rfl trivial

@[simp] theorem clean_literal (v : Scalar) : (literal v).Clean := everywhere_of_leaf rfl trivial

@[simp] theorem clean_entitySet (entity : String) : (entitySet entity).Clean :=
  everywhere_of_leaf rfl trivial

@[simp] theorem clean_sourceRef (row : Alias) (entity : String) : (sourceRef row entity).Clean :=
  everywhere_of_leaf rfl trivial

@[simp] theorem clean_baseTable (row : Alias) (schema : Option String) (table entity : String) :
    (baseTable row schema table entity).Clean := everywhere_of_leaf rfl trivial

@[simp] theorem clean_call {m : Method} {receiver : Option Expr} {type : DataType} :
    (call m receiver args type).Clean ↔ (∀ x ∈ receiver, x.Clean) ∧ ∀ a ∈ args, a.Clean := by
  rw [Clean, everywhere_iff]
  simp [Hygienic, children, or_imp, forall_and, Clean]

@[simp] theorem clean_member {name : String} {type : DataType} :
    (member e name type).Clean ↔ e.Clean := by
  rw [Clean, everywhere_iff]
  simp [Hygienic, children, Clean]

@[simp] theorem clean_lambda {params : List Param} :
    (lambda params e).Clean ↔ (∀ p ∈ params, ¬ Reserved p.name) ∧ e.Clean := by
  rw [Clean, everywhere_iff]
  simp [Hygienic, children, Clean]

@[simp] theorem clean_quote : (quote e).Clean ↔ e.Clean := by
  rw [Clean, everywhere_iff]
  simp [Hygienic, children, Clean]

@[simp] theorem clean_unary {op : UnaryOp} : (unary op e).Clean ↔ e.Clean := by
  rw [Clean, everywhere_iff]
  simp [Hygienic, children, Clean]

@[simp] theorem clean_binary {op : BinaryOp} : (binary op l r).Clean ↔ l.Clean ∧ r.Clean := by
  rw [Clean, everywhere_iff]
  simp [Hygienic, children, Clean]

@[simp] theorem clean_object {members : List (String × Expr)} :
    (object members).Clean ↔ ∀ m ∈ members, m.2.Clean := by
  rw [Clean, everywhere_iff]
  simp only [Hygienic, children, List.forall_mem_map, true_and, Clean]

@[simp] theorem clean_functionCall {function : DbFunction} :
    (functionCall function args).Clean ↔ ∀ a ∈ args, a.Clean := by
  rw [Clean, everywhere_iff]
  simp [Hygienic, children, Clean]

@[simp] theorem clean_tableFunction {row : Alias} {function : DbFunction} :
    (tableFunction row function args).Clean ↔ ∀ a ∈ args, a.Clean := by
  rw [Clean, everywhere_iff]
  simp [Hygienic, children, Clean]

@[simp] theorem clean_navigationJoin {label : JoinLabel} {o i ok ik : Expr} :
    (navigationJoin label o i ok ik).Clean ↔ o.Clean ∧ i.Clean ∧ ok.Clean ∧ ik.Clean := by
  rw [Clean, everywhere_iff]
  simp [Hygienic, children, Clean]

theorem Clean.setChildren {cs : List Expr} (h : e.Clean) (hlen : cs.length = e.children.length)
    (hcs : ∀ c ∈ cs, c.Clean) : (e.setChildren cs).Clean :=
  everywhere_setChildren hygienic_setChildren h.root hlen hcs

end Clean

theorem exists_param_of_kindName {e : Expr} (h : e.kindName = "Parameter") : ∃ p, e = param p := by
  cases e with
  | param p => exact ⟨p, rfl⟩
  | _ => simp [kindName] at h

theorem eq_param_of_setChildren {e : Expr} {cs : List Expr} {p : Param}
    (h : e.setChildren cs = param p) : e = param p := by
  have hkind : e.kindName = "Parameter" := by
    rw [← kindName_setChildren e cs, h]
    rfl
  obtain ⟨q, rfl⟩ := exists_param_of_kindName hkind
  exact h

theorem exists_lambda_of_kindName {e : Expr} (h : e.kindName = "Lambda") :
    ∃ params body, e = lambda params body := by
  cases e with
  | lambda params body => exact ⟨params, body, rfl⟩
  | _ => simp [kindName] at h

/-- Other arguments than lambdas and quotes are told apart by their types. -/
theorem argShape_eq_of_kindName {e : Expr} (hlambda : e.kindName ≠ "Lambda")
    (hquote : e.kindName ≠ "Quote") :
    ArgShape.of e = match e.type with
      | .queryable _ => .queryable
      | .sequence _ => .sequence
      | _ => .value := by
  cases e with
  | lambda => exact absurd rfl hlambda
  | quote => exact absurd rfl hquote
  | _ => rfl

theorem lookup_map_snd {κ : Type} [BEq κ] {α β : Type} (g : α → β) (xs : List (κ × α)) (k : κ) :
    (xs.map fun x => (x.1, g x.2)).lookup k = (xs.lookup k).map g := by
  induction xs with
  | nil => rfl
  | cons x xs ih =>
    rw [List.map_cons, List.lookup_cons, List.lookup_cons, ih]
    cases k == x.1 <;> rfl

section SubstMember

variable {p : Param} {name : String} {new e : Expr}

theorem substMember_of_isMemberOf (h : e.isMemberOf p name = true) :
    substMember p name new e = new := by
  rw [substMember.eq_def, if_pos h]

theorem substMember_lambda (params : List Param) (body : Expr) :
    substMember p name new (lambda params body) =
      if hides params p.name then lambda params body
      else lambda params (substMember p name new body) := by
  rw [substMember.eq_def, if_neg (by simp [isMemberOf])]

theorem substMember_eq_setChildren (h : e.isMemberOf p name = false)
    (hlambda : ∀ params body, e ≠ lambda params body) :
    substMember p name new e = e.setChildren (e.children.map (substMember p name new)) := by
  rw [substMember.eq_def, if_neg (by simp [h])]
  split
  · exact absurd rfl (hlambda _ _)
  · rw [mapChildren_eq]

theorem Clean.substMember (he : e.Clean) (p : Param) (name : String) (hnew : new.Clean) :
    (Expr.substMember p name new e).Clean := by
  induction e using lambdaInduction with
  | hlambda params body ih =>
    obtain ⟨hparams, hbody⟩ := clean_lambda.mp he
    rw [substMember_lambda]
    split
    · exact he
    · exact clean_lambda.mpr ⟨hparams, ih hbody⟩
  | hnode e hl ih =>
    cases hm : e.isMemberOf p name with
    | true =>
      rw [substMember_of_isMemberOf hm]
      exact hnew
    | false =>
      rw [substMember_eq_setChildren hm hl]
      refine he.setChildren (by simp) (List.forall_mem_map.mpr fun c hc => ?_)
      exact ih c hc (he.child hc)

end SubstMember

/-- Puts expressions for parameters wherever they are referred to, also under lambdas that bind
their names. -/
def fill (f : Param → Option Expr) (e : Expr) : Expr :=
  match e with
  | param p => (f p).getD (param p)
  | e => e.mapChildren fun c _ => fill f c
termination_by e
decreasing_by exact sizeOf_lt_of_mem_children ‹_›

/-- What may be put for a parameter: only a placeholder is replaced, by a literal or by another
placeholder of its type. -/
def StandIns (f : Param → Option Expr) : Prop :=
  ∀ p x, f p = some x → Reserved p.name ∧
    ((∃ v, isLiteral v = true ∧ x = const v p.type) ∨
      ∃ name, Reserved name ∧ x = param ⟨name, p.type⟩)

section Fill

variable {f : Param → Option Expr}

theorem fill_param (p : Param) : (param p).fill f = (f p).getD (param p) := by
  rw [fill]

/-- In all nodes but parameters, the children are filled in. -/
theorem fill_node {e : Expr} (h : ∀ p, e ≠ param p) :
    e.fill f = e.setChildren (e.children.map (fill f)) := by
  rw [fill, mapChildren_eq]
  exact fun p hp => h p hp

theorem kindName_fill {e : Expr} (h : ∀ p, e ≠ param p) : (e.fill f).kindName = e.kindName := by
  rw [fill_node h, kindName_setChildren]

theorem fill_ne_param {e : Expr} (h : ∀ p, e ≠ param p) (p : Param) : e.fill f ≠ param p := by
  intro hp
  obtain ⟨q, hq⟩ := exists_param_of_kindName (e := e) (by rw [← kindName_fill h, hp]; rfl)
  exact h q hq

@[simp] theorem fill_const (v : Constant Expr) (type : DataType) :
    (const v type).fill f = const v type := by
  rw [fill_node (by simp)]
  rfl

@[simp] theorem fill_call (m : Method) (receiver : Option Expr) (args : List Expr)
    (type : DataType) :
    (call m receiver args type).fill f =
      call m (receiver.map (fill f)) (args.map (fill f)) type := by
  rw [fill_node (by simp)]
  cases receiver <;> simp [children, setChildren]

@[simp] theorem fill_member (e : Expr) (name : String) (type : DataType) :
    (member e name type).fill f = member (e.fill f) name type := by
  rw [fill_node (by simp)]
  rfl

@[simp] theorem fill_lambda (params : List Param) (e : Expr) :
    (lambda params e).fill f = lambda params (e.fill f) := by
  rw [fill_node (by simp)]
  rfl

@[simp] theorem fill_quote (e : Expr) : (quote e).fill f = quote (e.fill f) := by
  rw [fill_node (by simp)]
  rfl

@[simp] theorem fill_invoke (e : Expr) (args : List Expr) (type : DataType) :
    (invoke e args type).fill f = invoke (e.fill f) (args.map (fill f)) type := by
  rw [fill_node (by simp)]
  rfl

@[simp] theorem fill_unary (op : UnaryOp) (e : Expr) :
    (unary op e).fill f = unary op (e.fill f) := by
  rw [fill_node (by simp)]
  rfl

@[simp] theorem fill_binary (op : BinaryOp) (l r : Expr) :
    (binary op l r).fill f = binary op (l.fill f) (r.fill f) := by
  rw [fill_node (by simp)]
  rfl

@[simp] theorem fill_cond (test whenTrue whenFalse : Expr) (type : DataType) :
    (cond test whenTrue whenFalse type).fill f =
      cond (test.fill f) (whenTrue.fill f) (whenFalse.fill f) type := by
  rw [fill_node (by simp)]
  rfl

@[simp] theorem fill_object (members : List (String × Expr)) :
    (object members).fill f = object (members.map fun m => (m.1, m.2.fill f)) := by
  rw [fill_node (by simp)]
  simp [children, setChildren, List.zipWith_map_right, List.zipWith_self]

@[simp] theorem fill_baseTable (row : Alias) (schema : Option String) (table entity : String) :
    (baseTable row schema table entity).fill f = baseTable row schema table entity := by
  rw [fill_node (by simp)]
  rfl

@[simp] theorem fill_derivedTable (row : Alias) (e : Expr) :
    (derivedTable row e).fill f = derivedTable row (e.fill f) := by
  rw [fill_node (by simp)]
  rfl

@[simp] theorem fill_functionCall (function : DbFunction) (args : List Expr) :
    (functionCall function args).fill f = functionCall function (args.map (fill f)) := by
  rw [fill_node (by simp)]
  rfl

@[simp] theorem fill_tableFunction (row : Alias) (function : DbFunction) (args : List Expr) :
    (tableFunction row function args).fill f = tableFunction row function (args.map (fill f)) := by
  rw [fill_node (by simp)]
  rfl

@[simp] theorem fill_navigationJoin (label : JoinLabel) (o i ok ik : Expr) :
    (navigationJoin label o i ok ik).fill f =
      navigationJoin label (o.fill f) (i.fill f) (ok.fill f) (ik.fill f) := by
  rw [fill_node (by simp)]
  rfl

@[simp] theorem fill_pivotTable (row : Alias) (s k a : Expr) (selector : Option Expr) :
    (pivotTable row s k a selector).fill f =
      pivotTable row (s.fill f) (k.fill f) (a.fill f) (selector.map (fill f)) := by
  rw [fill_node (by simp)]
  cases selector <;> rfl

@[simp] theorem fill_sourceRef (row : Alias) (entity : String) :
    (sourceRef row entity).fill f = sourceRef row entity := by
  rw [fill_node (by simp)]
  rfl

theorem fill_foldBinary? (op : BinaryOp) (es : List Expr) :
    foldBinary? op (es.map (fill f)) = (foldBinary? op es).map (fill f) := by
  cases es with
  | nil => rfl
  | cons e es =>
    simp only [List.map_cons, foldBinary?, Option.map_some, Option.some.injEq]
    induction es generalizing e with
    | nil => rfl
    | cons x es ih =>
      rw [List.map_cons, List.foldl_cons, List.foldl_cons, ← ih, fill_binary]

/-- A tree stays as it is if nothing is put for the parameters that it refers to. -/
theorem fill_eq_self {e : Expr} (h : ∀ p, param p ∈ e.nodes → f p = none) : e.fill f = e := by
  induction e using childInduction with
  | step e ih =>
    by_cases hparam : ∃ p, e = param p
    · obtain ⟨p, rfl⟩ := hparam
      rw [fill_param, h p (by rw [nodes_eq]; exact List.mem_cons_self)]
      rfl
    rw [fill_node fun p hp => hparam ⟨p, hp⟩]
    refine setChildren_map_eq_self fun c hc => ih c hc fun p hp => h p ?_
    rw [nodes_eq]
    exact List.mem_cons_of_mem _ (List.mem_flatMap.mpr ⟨c, hc, hp⟩)

end Fill

namespace StandIns

variable {f : Param → Option Expr} (hf : StandIns f)
include hf

/-- A parameter stays, or is a placeholder and becomes a literal or another placeholder. -/
theorem fill_param_cases (p : Param) :
    (param p).fill f = param p ∨ Reserved p.name ∧
      ((∃ v, isLiteral v = true ∧ (param p).fill f = const v p.type) ∨
        ∃ name, Reserved name ∧ (param p).fill f = param ⟨name, p.type⟩) := by
  rw [fill_param]
  cases h : f p with
  | none => exact .inl rfl
  | some x => exact .inr (hf p x h)

/-- What holds of all parameters and literals of a type holds of what a parameter of that type
becomes. -/
theorem of_fill_param {P : Expr → Prop} {p : Param} (hparam : ∀ name, P (param ⟨name, p.type⟩))
    (hliteral : ∀ v, isLiteral v = true → P (const v p.type)) : P ((param p).fill f) := by
  rcases hf.fill_param_cases p with h | ⟨-, ⟨v, hv, h⟩ | ⟨name, -, h⟩⟩
  · rw [h]
    exact hparam p.name
  · rw [h]
    exact hliteral v hv
  · rw [h]
    exact hparam name

theorem fill_ne_lambda {e : Expr} (h : ∀ params body, e ≠ lambda params body) (params : List Param)
    (body : Expr) : e.fill f ≠ lambda params body := by
  intro hl
  by_cases hparam : ∃ p, e = param p
  · obtain ⟨p, rfl⟩ := hparam
    exact hf.of_fill_param (P := fun x => x ≠ lambda params body) nofun nofun hl
  · have hkind := kindName_fill (f := f) fun p hp => hparam ⟨p, hp⟩
    obtain ⟨params', body', he⟩ :=
      exists_lambda_of_kindName (e := e) (by rw [← hkind, hl]; rfl)
    exact h params' body' he

/-- The only kind that a node may take on is that of constants. -/
theorem kindName_fill_ne {e : Expr} {kind : String} (hkind : kind ≠ "Constant")
    (h : e.kindName ≠ kind) : (e.fill f).kindName ≠ kind := by
  by_cases hparam : ∃ p, e = param p
  · obtain ⟨p, rfl⟩ := hparam
    exact hf.of_fill_param (P := fun x => x.kindName ≠ kind) (fun _ => h) fun _ _ => hkind.symm
  · rw [kindName_fill fun p hp => hparam ⟨p, hp⟩]
    exact h

theorem fill_param_of_not_reserved {p : Param} (h : ¬ Reserved p.name) :
    (param p).fill f = param p := by
  rcases hf.fill_param_cases p with hp | ⟨hp, -⟩
  · exact hp
  · exact absurd hp h

theorem fill_unreserved {e : Expr} (h : e.Unreserved) : e.fill f = e := by
  refine fill_eq_self fun p hp => ?_
  have hparam : (param p).Unreserved := h.everywhere (param p) hp
  cases hx : f p with
  | none => rfl
  | some x => exact absurd (hf p x hx).1 hparam.param

theorem children_fill (e : Expr) : (e.fill f).children = e.children.map (fill f) := by
  by_cases hparam : ∃ p, e = param p
  · obtain ⟨p, rfl⟩ := hparam
    exact hf.of_fill_param (P := fun x => x.children = []) (fun _ => rfl) fun _ _ => rfl
  · rw [fill_node fun p hp => hparam ⟨p, hp⟩, children_setChildren (by simp)]

theorem fill_setChildren {e : Expr} {cs : List Expr} (hlen : cs.length = e.children.length) :
    (e.setChildren cs).fill f = (e.fill f).setChildren (cs.map (fill f)) := by
  by_cases hparam : ∃ p, e = param p
  · obtain ⟨p, rfl⟩ := hparam
    cases List.eq_nil_of_length_eq_zero hlen
    rcases hf.fill_param_cases p with h | ⟨-, ⟨v, -, h⟩ | ⟨name, -, h⟩⟩ <;>
      simp [setChildren, h]
  · have hne : ∀ p, e.setChildren cs ≠ param p :=
      fun p hp => hparam ⟨p, eq_param_of_setChildren hp⟩
    rw [fill_node hne, children_setChildren hlen, fill_node fun p hp => hparam ⟨p, hp⟩,
      setChildren_setChildren hlen (by simpa using hlen),
      setChildren_setChildren (by simp) (by simpa using hlen)]

theorem nodes_fill (e : Expr) : (e.fill f).nodes = e.nodes.map (fill f) := by
  induction e using childInduction with
  | step e ih =>
    rw [nodes_eq, hf.children_fill, nodes_eq, List.map_cons, List.flatMap_map, List.map_flatMap]
    exact congrArg _ (List.flatMap_congr ih)

theorem isNullConstant_fill (e : Expr) : (e.fill f).isNullConstant = e.isNullConstant := by
  cases e with
  | param p =>
    rcases hf.fill_param_cases p with h | ⟨-, ⟨v, hv, h⟩ | ⟨name, -, h⟩⟩
    · rw [h]
    · rw [h]
      cases v with
      | scalar v => simpa [isLiteral, isNullConstant, Constant.isNull] using hv
      | _ => rfl
    · rw [h]
      rfl
  | _ => simp [isNullConstant]

theorem lambda?_fill (e : Expr) :
    (e.fill f).lambda? = e.lambda?.map fun l => (l.1, l.2.fill f) := by
  cases e with
  | param p =>
    exact hf.of_fill_param (P := fun x => x.lambda? = none) (fun _ => rfl) fun _ _ => rfl
  | quote inner =>
    cases inner with
    | param p =>
      rw [fill_quote]
      exact hf.of_fill_param (P := fun x => (quote x).lambda? = none) (fun _ => rfl) fun _ _ => rfl
    | _ => simp [lambda?]
  | _ => simp [lambda?]

theorem type_fill (e : Expr) : (e.fill f).type = e.type := by
  induction e using childInduction with
  | step e ih =>
    cases e with
    | param p =>
      exact hf.of_fill_param (P := fun x => x.type = p.type) (fun _ => rfl) fun _ _ => rfl
    | lambda params body => simp [type, ih body (by simp [children])]
    | quote inner => simp [type, ih inner (by simp [children])]
    | unary op operand => cases op <;> simp [type, ih operand (by simp [children])]
    | binary op l r => simp [type, ih l (by simp [children])]
    | object members =>
      simp only [fill_object, type, memberTypes_eq_map, List.map_map, DataType.record.injEq]
      refine List.map_congr_left fun m hm => ?_
      simp [ih m.2 (List.mem_map_of_mem hm)]
    | derivedTable row subquery => simp [type, ih subquery (by simp [children])]
    | navigationJoin label o i ok ik => simp [type, ih o (by simp [children])]
    | pivotTable row s k a selector =>
      -- The type of a selector shows the type of its result.
      have hselector : ∀ c ∈ (pivotTable row s k a selector).children,
          (c.fill f).lambdaType = c.lambdaType := by
        intro c hc
        have htype := ih c hc
        rw [lambdaType_eq, lambdaType_eq, hf.lambda?_fill]
        cases c with
        | lambda params body => simpa [lambda?, type] using htype
        | quote inner =>
          cases inner with
          | lambda params body => simpa [lambda?, type] using htype
          | _ => rfl
        | _ => rfl
      cases selector with
      | none =>
        simp [type, hselector k (by simp [children]), hselector a (by simp [children])]
      | some r => simp [type, hselector r (by simp [children])]
    | _ => simp [type]

theorem argShape_fill (e : Expr) : ArgShape.of (e.fill f) = ArgShape.of e := by
  cases e with
  | param p =>
    exact hf.of_fill_param (P := fun x => ArgShape.of x = ArgShape.of (param p)) (fun _ => rfl)
      fun _ _ => rfl
  | quote inner =>
    cases inner with
    | param p =>
      rw [fill_quote]
      exact hf.of_fill_param (P := fun x => ArgShape.of (quote x) = ArgShape.of (quote (param p)))
        (fun _ => rfl) fun _ _ => rfl
    | _ => simp [ArgShape.of]
  | lambda params body => simp [ArgShape.of]
  | _ =>
    rw [argShape_eq_of_kindName (by simp [kindName]) (by simp [kindName]),
      argShape_eq_of_kindName (by simp [kindName]) (by simp [kindName]), hf.type_fill]

theorem references_fill {q : Param} (hq : ¬ Reserved q.name) (e : Expr) :
    (e.fill f).references q = e.references q := by
  induction e using scopeInduction with
  | hparam p =>
    rcases hf.fill_param_cases p with h | ⟨hp, ⟨v, -, h⟩ | ⟨name, hname, h⟩⟩
    · rw [h]
    · rw [h, references_eq_any _ _ (by simp) (by simp)]
      simp [children, ne_of_reserved hp hq]
    · have hne : (⟨name, p.type⟩ : Param) ≠ q := ne_of_reserved hname hq
      simp [h, ne_of_reserved hp hq, hne]
  | hlambda params body ih => simp [ih]
  | hnode e hp hl ih =>
    rw [references_eq_any q e hp hl,
      references_eq_any q (e.fill f) (fill_ne_param hp) (hf.fill_ne_lambda hl),
      hf.children_fill, List.any_map, List.any_eq, List.any_eq]
    refine decide_eq_decide.mpr (exists_congr fun c => and_congr_right fun hc => ?_)
    rw [Function.comp, ih c hc]

theorem fill_subst {σ : Bindings} (hσ : BindsUnreserved σ) (e : Expr) :
    (e.subst σ).fill f = (e.fill f).subst (σ.map fun b => (b.1, b.2.fill f)) := by
  induction e using scopeInduction generalizing σ with
  | hparam p =>
    have hlookup := lookup_map_snd (fill f) σ
    rw [subst_param]
    cases hp : σ.lookup p with
    | some x =>
      have hname : ¬ Reserved p.name := hσ (p, x) (mem_of_lookup hp)
      rw [hf.fill_param_of_not_reserved hname, subst_param, hlookup, hp]
      rfl
    | none =>
      -- The parameter stays, so it is looked up again in the form that filling in gives it.
      rcases hf.fill_param_cases p with h | ⟨-, ⟨v, -, h⟩ | ⟨name, hname, h⟩⟩
      · rw [Option.getD_none, h, subst_param, hlookup, hp]
        rfl
      · rw [Option.getD_none, h, subst_eq_setChildren _ _ (by simp) (by simp)]
        rfl
      · -- The bindings do not touch placeholders.
        have hnone : σ.lookup ⟨name, p.type⟩ = none := by
          refine List.lookup_eq_none_iff.mpr fun b hb => ?_
          exact bne_iff_ne.mpr (ne_of_reserved (p := ⟨name, p.type⟩) hname (hσ b hb))
        rw [Option.getD_none, h, subst_param, hlookup, hnone]
        rfl
  | hlambda params body ih =>
    have hvisible : Bindings.visible (σ.map fun b => (b.1, b.2.fill f)) params =
        (σ.visible params).map fun b => (b.1, b.2.fill f) := by
      simp only [Bindings.visible, List.filter_map]
      rfl
    have hbody := ih (σ := σ.visible params) fun b hb => hσ b (List.mem_filter.mp hb).1
    rw [subst_lambda, fill_lambda, fill_lambda, subst_lambda, hvisible, hbody]
  | hnode e hp hl ih =>
    rw [subst_eq_setChildren σ e hp hl, hf.fill_setChildren (by simp),
      subst_eq_setChildren _ (e.fill f) (fill_ne_param hp) (hf.fill_ne_lambda hl),
      hf.children_fill, List.map_map, List.map_map]
    exact congrArg _ (List.map_congr_left fun c hc => ih c hc hσ)

theorem isMemberOf_fill {p : Param} (hp : ¬ Reserved p.name) (name : String) (e : Expr) :
    (e.fill f).isMemberOf p name = e.isMemberOf p name := by
  cases e with
  | member target n type =>
    cases target with
    | param q =>
      rw [fill_member]
      rcases hf.fill_param_cases q with h | ⟨hq, ⟨v, -, h⟩ | ⟨name', hname, h⟩⟩
      · rw [h]
      · simp [h, isMemberOf, ne_of_reserved hq hp]
      · have hne : (⟨name', q.type⟩ : Param) ≠ p := ne_of_reserved hname hp
        simp [h, isMemberOf, beq_false_of_ne (ne_of_reserved hq hp), beq_false_of_ne hne]
    | _ => simp [isMemberOf]
  | param q =>
    exact hf.of_fill_param (P := fun x => x.isMemberOf p name = false) (fun _ => rfl) fun _ _ => rfl
  | _ => simp [isMemberOf]

theorem fill_substMember {p : Param} (hp : ¬ Reserved p.name) (name : String) (new e : Expr) :
    (substMember p name new e).fill f = substMember p name (new.fill f) (e.fill f) := by
  induction e using lambdaInduction with
  | hlambda params body ih =>
    rw [substMember_lambda, fill_lambda, substMember_lambda]
    split
    · exact fill_lambda params body
    · rw [fill_lambda, ih]
  | hnode e hl ih =>
    have hmember := hf.isMemberOf_fill hp name e
    cases hm : e.isMemberOf p name with
    | true => rw [substMember_of_isMemberOf hm, substMember_of_isMemberOf (hmember.trans hm)]
    | false =>
      rw [substMember_eq_setChildren hm hl, hf.fill_setChildren (by simp),
        substMember_eq_setChildren (hmember.trans hm) (hf.fill_ne_lambda hl),
        hf.children_fill, List.map_map, List.map_map]
      exact congrArg _ (List.map_congr_left ih)

end StandIns

theorem clean_foldBinary? {op : BinaryOp} {es : List Expr} {e : Expr} (hes : ∀ x ∈ es, x.Clean)
    (h : foldBinary? op es = some e) : e.Clean := by
  refine of_foldBinary? (fun l r hl hr => ?_) hes h
  exact clean_binary.mpr ⟨hl, hr⟩

/-- The second tree is the first one, which is clean, with placeholders filled in. -/
def Filled (f : Param → Option Expr) (e e' : Expr) : Prop := e.Clean ∧ e' = e.fill f

theorem Clean.filled {f : Param → Option Expr} {e : Expr} (h : e.Clean) : Filled f e (e.fill f) :=
  ⟨h, rfl⟩

end Expr

open QueryLowering.Expr

variable {f : Param → Option Expr} {e : Expr}

namespace Expr.StandIns

variable (hf : StandIns f)
include hf

theorem map_argShape_fill (args : List Expr) :
    (args.map (fill f)).map ArgShape.of = args.map ArgShape.of := by
  rw [List.map_map]
  exact List.map_congr_left fun a _ => hf.argShape_fill a

theorem map_type_fill (args : List Expr) :
    (args.map (fill f)).map Expr.type = args.map Expr.type := by
  rw [List.map_map]
  exact List.map_congr_left fun a _ => hf.type_fill a

theorem findFor?_fill (m : Method) (args : List Expr) :
    Operator.findFor? m (args.map (fill f)) = Operator.findFor? m args := by
  rw [Operator.findFor?, hf.map_argShape_fill, Operator.findFor?]

theorem sourceElement_fill (op : Operator) (args : List Expr) :
    op.sourceElement (args.map (fill f)) = op.sourceElement args := by
  cases args with
  | nil => rfl
  | cons a args => simp [Operator.sourceElement, hf.type_fill]

theorem lambdaResultAt_fill (op : Operator) (args : List Expr) (i : Nat) :
    op.lambdaResultAt (args.map (fill f)) i = op.lambdaResultAt args i := by
  have hresult : ((args.map (fill f))[i]?.bind lambda?).map (fun l => l.2.type) =
      (args[i]?.bind lambda?).map fun l => l.2.type := by
    cases h : args[i]? with
    | none => simp [h]
    | some a => simp [h, hf.lambda?_fill, Function.comp_def, hf.type_fill]
  unfold Operator.lambdaResultAt
  cases h : args[i]?.bind lambda? with
  | none =>
    rw [h] at hresult
    rw [Option.map_eq_none_iff.mp hresult]
  | some l =>
    rw [h] at hresult
    obtain ⟨l', hl', htype⟩ := Option.map_eq_some_iff.mp hresult
    rw [hl']
    exact congrArg Except.ok htype

/-- Operators are typed by the types of their arguments. -/
theorem resultType_fill (op : Operator) (args : List Expr) :
    op.resultType (args.map (fill f)) = op.resultType args := by
  unfold Operator.resultType
  cases op.result with
  | passthrough =>
    cases args with
    | nil => rfl
    | cons a args => simp [hf.type_fill]
  | _ => simp only [hf.sourceElement_fill, hf.lambdaResultAt_fill]

theorem operatorTypeArgs_fill (args : List Expr) :
    operatorTypeArgs (args.map (fill f)) = operatorTypeArgs args := by
  simp only [operatorTypeArgs, List.filterMap_map, Function.comp_def, hf.type_fill, hf.lambda?_fill,
    Option.map_map]

/-- Calls of one operator on arguments, once as they are and once filled in, agree. -/
theorem agree_callOperator {owner name : String} {args : List Expr} (hargs : ∀ a ∈ args, a.Clean) :
    Agree (Filled f) (callOperator owner name args)
      (callOperator owner name (args.map (fill f))) := by
  unfold callOperator
  simp only [hf.map_argShape_fill, hf.resultType_fill, hf.operatorTypeArgs_fill]
  split
  · rename_i op hop
    refine (agree_self (R := Eq) fun _ _ => rfl).bind fun type _ htype => ?_
    subst htype
    exact .ok ⟨by simpa using hargs, by simp⟩
  · exact .error rfl

/-- A node is filled in through its children. -/
theorem filled_setChildren {cs cs' : List Expr} (he : e.Clean)
    (hcs : List.Forall₂ (Filled f) cs cs' ∧ cs.length = e.children.length) :
    Filled f (e.setChildren cs) ((e.fill f).setChildren cs') := by
  obtain ⟨hclean, rfl⟩ := eq_map_of_forall₂ hcs.1
  exact ⟨he.setChildren hcs.2 hclean, (hf.fill_setChildren hcs.2).symm⟩

theorem agree_withChildren {cs : List Expr} (he : e.Clean) (hcs : ∀ c ∈ cs, c.Clean) :
    Agree (Filled f) (e.withChildren cs) ((e.fill f).withChildren (cs.map (fill f))) := by
  unfold withChildren
  rw [hf.children_fill, List.length_map, List.length_map]
  split
  · rename_i hlen
    exact .ok ⟨he.setChildren hlen hcs, (hf.fill_setChildren hlen).symm⟩
  · exact .error rfl

theorem agree_traverse {g g' : Expr → Except Failure Expr} (he : e.Clean)
    (hg : ∀ c ∈ e.children, Agree (Filled f) (g c) (g' (c.fill f))) :
    Agree (Filled f) (e.traverse fun c _ => g c) ((e.fill f).traverse fun c _ => g' c) := by
  rw [traverse_eq, traverse_eq, hf.children_fill, List.mapM_map]
  exact (Agree.mapM hg).map fun cs cs' hcs => hf.filled_setChildren he hcs

/-- Rules that agree on clean nodes agree on clean trees. -/
theorem agree_bottomUp {rule : Pass.Rule} (he : e.Clean)
    (hrule : ∀ n : Expr, n.Clean → Agree (Option.Rel (Filled f)) (rule n) (rule (n.fill f))) :
    Agree (Filled f) (Pass.bottomUp rule e) (Pass.bottomUp rule (e.fill f)) := by
  induction e using childInduction with
  | step e ih =>
    rw [Pass.bottomUp_eq, Pass.bottomUp_eq, hf.children_fill, List.mapM_map]
    refine (Agree.mapM fun c hc => ih c hc (he.child hc)).bind fun cs cs' hcs => ?_
    obtain ⟨hnode, heq⟩ := hf.filled_setChildren he hcs
    rw [heq]
    refine (hrule _ hnode).bind fun result result' hresult => ?_
    cases hresult with
    | none => exact .ok hnode.filled
    | some h => exact .ok h

section Steps

variable {σ : Type} {I : σ → Prop}

theorem stepAgree_traverse {g g' : Expr → StateStep σ Expr} (he : e.Clean)
    (hg : ∀ c ∈ e.children, StateStep.Agree I (Filled f) (g c) (g' (c.fill f))) :
    StateStep.Agree I (Filled f) (e.traverse fun c _ => g c)
      ((e.fill f).traverse fun c _ => g' c) := by
  rw [traverse_eq, traverse_eq, hf.children_fill, List.mapM_map]
  exact (StateStep.Agree.mapM hg).map fun cs cs' hcs => hf.filled_setChildren he hcs

theorem stepAgree_traverseIdx {g g' : Nat → Expr → StateStep σ Expr} (he : e.Clean)
    (hg : ∀ i, ∀ c ∈ e.children, StateStep.Agree I (Filled f) (g i c) (g' i (c.fill f))) :
    StateStep.Agree I (Filled f) (e.traverseIdx fun i c _ => g i c)
      ((e.fill f).traverseIdx fun i c _ => g' i c) := by
  rw [traverseIdx_eq, traverseIdx_eq, hf.children_fill, List.zipIdx_map, List.mapM_map]
  refine (StateStep.Agree.mapM fun c hc => hg c.2 c.1 (List.fst_mem_of_mem_zipIdx hc)).map ?_
  intro cs cs' hcs
  exact hf.filled_setChildren he ⟨hcs.1, by simpa using hcs.2⟩

end Steps

end Expr.StandIns

end QueryLowering
