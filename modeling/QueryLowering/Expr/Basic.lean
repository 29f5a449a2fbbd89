import QueryLowering.Function
import QueryLowering.Value

/-!
Query expressions. Next to the nodes that the host language produces there are relational nodes,
which passes put in: tables, database functions, joins along navigations and references to joined
rows. Every node has a list of children; the parameters of a lambda and the body of a delegate are
not among them.
-/

namespace QueryLowering

structure Param where
  name : String
  type : DataType
deriving DecidableEq, Repr

/-- The number of a row source of a query. -/
structure Alias where
  number : Nat
deriving DecidableEq, Repr

def Alias.text (a : Alias) : String := "t" ++ toString a.number

inductive UnaryOp where
  | not
  | negate
  | isNull
  | isNotNull
deriving DecidableEq, Repr

inductive BinaryOp where
  | eq
  | notEq
  | lt
  | ltEq
  | gt
  | gtEq
  | and
  | or
  | add
  | sub
  | mul
  | div
deriving DecidableEq, Repr

def BinaryOp.isEquality : BinaryOp → Bool
  | eq | notEq => true
  | _ => false

def BinaryOp.isComparison : BinaryOp → Bool
  | eq | notEq | lt | ltEq | gt | gtEq => true
  | _ => false

def BinaryOp.isArithmetic : BinaryOp → Bool
  | add | sub | mul | div => true
  | _ => false

inductive JoinKind where
  | inner
  | leftOuter
deriving DecidableEq, Repr

/-- What labels a join along a navigation. -/
structure JoinLabel where
  row : Alias
  navigation : String
  kind : JoinKind
deriving DecidableEq, Repr

inductive Expr where
  | const (value : Constant Expr) (type : DataType)
  | param (p : Param)
  | call (method : Method) (receiver : Option Expr) (args : List Expr) (type : DataType)
  | member (target : Expr) (name : String) (type : DataType)
  | lambda (params : List Param) (body : Expr)
  | quote (inner : Expr)
  | invoke (callee : Expr) (args : List Expr) (type : DataType)
  | unary (op : UnaryOp) (operand : Expr)
  | binary (op : BinaryOp) (left right : Expr)
  | cond (test whenTrue whenFalse : Expr) (type : DataType)
  | object (members : List (String × Expr))
  | baseTable (row : Alias) (schema : Option String) (table entity : String)
  | derivedTable (row : Alias) (subquery : Expr)
  | functionCall (function : DbFunction) (args : List Expr)
  | tableFunction (row : Alias) (function : DbFunction) (args : List Expr)
  | navigationJoin (label : JoinLabel) (outer inner outerKey innerKey : Expr)
  | pivotTable (row : Alias) (source key aggregate : Expr) (selector : Option Expr)
  | sourceRef (row : Alias) (entity : String)

instance : Inhabited Expr := ⟨.sourceRef ⟨0⟩ ""⟩

namespace Expr

/-- The name of the node's kind. -/
def kindName : Expr → String
  | const .. => "Constant"
  | param .. => "Parameter"
  | call .. => "MethodCall"
  | member .. => "Member"
  | lambda .. => "Lambda"
  | quote .. => "Quote"
  | invoke .. => "Invoke"
  | unary .. => "Unary"
  | binary .. => "Binary"
  | cond .. => "Conditional"
  | object .. => "New"
  | baseTable .. => "BaseTable"
  | derivedTable .. => "DerivedTable"
  | functionCall .. => "FunctionCall"
  | tableFunction .. => "TableValuedFunction"
  | navigationJoin .. => "NavigationJoin"
  | pivotTable .. => "PivotTable"
  | sourceRef .. => "SourceRef"

/-- Is this one of the nodes that only passes put in? -/
def isRelational : Expr → Bool
  | baseTable .. | derivedTable .. | functionCall .. | tableFunction .. | navigationJoin ..
  | pivotTable .. | sourceRef .. => true
  | _ => false

def children : Expr → List Expr
  | const .. | param .. | baseTable .. | sourceRef .. => []
  | call _ receiver args _ => receiver.toList ++ args
  | member target _ _ => [target]
  | lambda _ body => [body]
  | quote inner => [inner]
  | invoke callee args _ => callee :: args
  | unary _ operand => [operand]
  | binary _ left right => [left, right]
  | cond test whenTrue whenFalse _ => [test, whenTrue, whenFalse]
  | object members => members.map (·.2)
  | derivedTable _ subquery => [subquery]
  | functionCall _ args => args
  | tableFunction _ _ args => args
  | navigationJoin _ outer inner outerKey innerKey => [outer, inner, outerKey, innerKey]
  | pivotTable _ source key aggregate selector => [source, key, aggregate] ++ selector.toList

/-- Puts other children into a node. The list has to be as long as that of the node's children:
see `withChildren`. -/
def setChildren : Expr → List Expr → Expr
  | call m none _ type, cs => call m none cs type
  | call m (some _) _ type, c :: cs => call m (some c) cs type
  | member _ name type, [c] => member c name type
  | lambda params _, [c] => lambda params c
  | quote _, [c] => quote c
  | invoke _ _ type, c :: cs => invoke c cs type
  | unary op _, [c] => unary op c
  | binary op _ _, [l, r] => binary op l r
  | cond _ _ _ type, [c, t, f] => cond c t f type
  | object members, cs => object (List.zipWith (fun m c => (m.1, c)) members cs)
  | derivedTable row _, [c] => derivedTable row c
  | functionCall f _, cs => functionCall f cs
  | tableFunction row f _, cs => tableFunction row f cs
  | navigationJoin label _ _ _ _, [o, i, ok, ik] => navigationJoin label o i ok ik
  | pivotTable row _ _ _ none, [s, k, a] => pivotTable row s k a none
  | pivotTable row _ _ _ (some _), [s, k, a, r] => pivotTable row s k a (some r)
  | e, _ => e

/-- Rebuilds a node from a list of children, which has to be as long as its own. -/
def withChildren (e : Expr) (cs : List Expr) : Except Failure Expr :=
  if cs.length = e.children.length then .ok (e.setChildren cs)
  else .error (.internalError
    ("Expected " ++ toString e.children.length ++ " children when rebuilding " ++ e.kindName ++
      ", got " ++ toString cs.length))

/-- The name by which a relational node refers to itself when it is rebuilt on its own. -/
def nodeLabel : Expr → String
  | pivotTable .. => "pivot"
  | e => e.kindName

/-- The failure of a relational node that is rebuilt from a list of another length than its own. -/
def wrongNodeChildren (e : Expr) (cs : List Expr) : Failure :=
  .internalError
    ("Expected " ++ toString e.children.length ++ " children for " ++ e.nodeLabel ++
      ", got " ++ toString cs.length)

/-- Rebuilds a relational node on its own, each kind by itself. -/
def withNodeChildren (e : Expr) (cs : List Expr) : Except Failure Expr :=
  match e, cs with
  | baseTable row schema table entity, [] => .ok (baseTable row schema table entity)
  | derivedTable row _, [c] => .ok (derivedTable row c)
  | functionCall f args, cs =>
    if cs.length = args.length then .ok (functionCall f cs)
    else .error (wrongNodeChildren (functionCall f args) cs)
  | tableFunction row f args, cs =>
    if cs.length = args.length then .ok (tableFunction row f cs)
    else .error (wrongNodeChildren (tableFunction row f args) cs)
  | navigationJoin label _ _ _ _, [outer, inner, outerKey, innerKey] =>
    .ok (navigationJoin label outer inner outerKey innerKey)
  | pivotTable row _ _ _ none, [source, key, aggregate] =>
    .ok (pivotTable row source key aggregate none)
  | pivotTable row _ _ _ (some _), [source, key, aggregate, selector] =>
    .ok (pivotTable row source key aggregate (some selector))
  | sourceRef row entity, [] => .ok (sourceRef row entity)
  | e, cs => .error (wrongNodeChildren e cs)

theorem sizeOf_lt_of_mem_children {c e : Expr} (h : c ∈ e.children) : sizeOf c < sizeOf e := by
  cases e with
  | const | param | baseTable | sourceRef => simp [children] at h
  | call m receiver args type =>
    simp only [children, List.mem_append, Option.mem_toList] at h
    rcases h with h | h
    · subst h
      simp only [call.sizeOf_spec, Option.some.sizeOf_spec]
      omega
    · have := List.sizeOf_lt_of_mem h
      simp only [call.sizeOf_spec]
      omega
  | invoke callee args type =>
    simp only [children, List.mem_cons] at h
    rcases h with h | h
    · subst h
      simp only [invoke.sizeOf_spec]
      omega
    · have := List.sizeOf_lt_of_mem h
      simp only [invoke.sizeOf_spec]
      omega
  | object members =>
    simp only [children, List.mem_map] at h
    obtain ⟨⟨n, x⟩, h, rfl⟩ := h
    have := List.sizeOf_lt_of_mem h
    simp only [object.sizeOf_spec, Prod.mk.sizeOf_spec] at *
    omega
  | functionCall f args =>
    have := List.sizeOf_lt_of_mem (show c ∈ args from h)
    simp only [functionCall.sizeOf_spec]
    omega
  | tableFunction row f args =>
    have := List.sizeOf_lt_of_mem (show c ∈ args from h)
    simp only [tableFunction.sizeOf_spec]
    omega
  | pivotTable row s k a selector =>
    simp only [children, List.cons_append, List.nil_append, List.mem_cons, Option.mem_toList] at h
    simp only [pivotTable.sizeOf_spec]
    rcases h with h | h | h | h <;> subst h
    · omega
    · omega
    · omega
    · simp only [Option.some.sizeOf_spec]
      omega
  | binary op l r =>
    simp only [children, List.mem_cons, List.not_mem_nil, or_false] at h
    simp only [binary.sizeOf_spec]
    rcases h with h | h <;> subst h <;> omega
  | cond t a b type =>
    simp only [children, List.mem_cons, List.not_mem_nil, or_false] at h
    simp only [cond.sizeOf_spec]
    rcases h with h | h | h <;> subst h <;> omega
  | navigationJoin label o i ok ik =>
    simp only [children, List.mem_cons, List.not_mem_nil, or_false] at h
    simp only [navigationJoin.sizeOf_spec]
    rcases h with h | h | h | h <;> subst h <;> omega
  | lambda _ target | member target | unary _ target | derivedTable _ target | quote target =>
    cases List.mem_singleton.1 h
    simp only [lambda.sizeOf_spec, member.sizeOf_spec, unary.sizeOf_spec, derivedTable.sizeOf_spec,
      quote.sizeOf_spec]
    omega

/-- Induction over expressions along their children. -/
@[elab_as_elim]
theorem childInduction {P : Expr → Prop} (step : ∀ e, (∀ c ∈ e.children, P c) → P e) (e : Expr) :
    P e :=
  step e fun c _ => childInduction step c
termination_by e
decreasing_by exact sizeOf_lt_of_mem_children ‹_›

/-- Induction over expressions where lambdas are told apart from all other nodes. -/
@[elab_as_elim]
theorem lambdaInduction {P : Expr → Prop}
    (hlambda : ∀ params body, P body → P (lambda params body))
    (hnode : ∀ e, (∀ params body, e ≠ lambda params body) → (∀ c ∈ e.children, P c) → P e)
    (e : Expr) : P e := by
  induction e using childInduction with
  | step e ih =>
    by_cases hl : ∃ params body, e = lambda params body
    · obtain ⟨params, body, rfl⟩ := hl
      exact hlambda params body (ih body (by simp [children]))
    · exact hnode e (fun params body h => hl ⟨params, body, h⟩) ih

/-- Induction over expressions where parameters and lambdas are told apart from all other nodes. -/
@[elab_as_elim]
theorem scopeInduction {P : Expr → Prop} (hparam : ∀ p, P (param p))
    (hlambda : ∀ params body, P body → P (lambda params body))
    (hnode : ∀ e, (∀ p, e ≠ param p) → (∀ params body, e ≠ lambda params body) →
      (∀ c ∈ e.children, P c) → P e) (e : Expr) : P e := by
  induction e using lambdaInduction with
  | hlambda params body ih => exact hlambda params body ih
  | hnode e hl ih =>
    by_cases hp : ∃ p, e = param p
    · obtain ⟨p, rfl⟩ := hp
      exact hparam p
    · exact hnode e (fun p h => hp ⟨p, h⟩) hl ih

/-- Applies a function to every child. -/
def mapChildren (e : Expr) (f : (c : Expr) → c ∈ e.children → Expr) : Expr :=
  e.setChildren (e.children.attach.map fun c => f c.1 c.2)

/-- Applies an effectful function to every child, from left to right. -/
def traverse {m : Type → Type} [Monad m] (e : Expr) (f : (c : Expr) → c ∈ e.children → m Expr) :
    m Expr :=
  e.setChildren <$> e.children.attach.mapM fun c => f c.1 c.2

/-- Applies a function to every child and its position. -/
def mapChildrenIdx (e : Expr) (f : (i : Nat) → (c : Expr) → c ∈ e.children → Expr) : Expr :=
  e.setChildren (e.children.attach.zipIdx.map fun c => f c.2 c.1.1 c.1.2)

/-- Applies an effectful function to every child and its position, from left to right. -/
def traverseIdx {m : Type → Type} [Monad m] (e : Expr)
    (f : (i : Nat) → (c : Expr) → c ∈ e.children → m Expr) : m Expr :=
  e.setChildren <$> e.children.attach.zipIdx.mapM fun c => f c.2 c.1.1 c.1.2

theorem mapChildren_eq (e : Expr) (f : Expr → Expr) :
    e.mapChildren (fun c _ => f c) = e.setChildren (e.children.map f) := by
  simp [mapChildren]

theorem traverse_eq {m : Type → Type} [Monad m] [LawfulMonad m] (e : Expr) (f : Expr → m Expr) :
    e.traverse (fun c _ => f c) = e.setChildren <$> e.children.mapM f := by
  simp [traverse]

theorem mapChildrenIdx_eq (e : Expr) (f : Nat → Expr → Expr) :
    e.mapChildrenIdx (fun i c _ => f i c) =
      e.setChildren (e.children.zipIdx.map fun c => f c.2 c.1) := by
  have h : e.children.zipIdx = e.children.attach.zipIdx.map fun c => (c.1.1, c.2) := by
    conv => lhs; rw [← List.attach_map_subtype_val e.children, List.zipIdx_map]
    rfl
  simp [mapChildrenIdx, h, Function.comp_def]

theorem traverseIdx_eq {m : Type → Type} [Monad m] [LawfulMonad m] (e : Expr)
    (f : Nat → Expr → m Expr) :
    e.traverseIdx (fun i c _ => f i c) =
      e.setChildren <$> e.children.zipIdx.mapM fun c => f c.2 c.1 := by
  have h : e.children.zipIdx = e.children.attach.zipIdx.map fun c => (c.1.1, c.2) := by
    conv => lhs; rw [← List.attach_map_subtype_val e.children, List.zipIdx_map]
    rfl
  simp [traverseIdx, h, Function.comp_def]

/-- Does a child satisfy the test? -/
def anyChild (e : Expr) (p : (c : Expr) → c ∈ e.children → Bool) : Bool :=
  e.children.attach.any fun c => p c.1 c.2

theorem anyChild_eq (e : Expr) (p : Expr → Bool) :
    e.anyChild (fun c _ => p c) = e.children.any p := by
  simp [anyChild]

/-- All nodes that are reached through children, each before its children, from left to right. -/
def nodes (e : Expr) : List Expr := e :: e.children.attach.flatMap fun c => nodes c.1
termination_by e
decreasing_by exact sizeOf_lt_of_mem_children c.2

theorem nodes_eq (e : Expr) : e.nodes = e :: e.children.flatMap nodes := by
  rw [nodes]; simp

/-- Does a node of the tree satisfy the test? -/
def anyNode (p : Expr → Bool) (e : Expr) : Bool := e.nodes.any p

/-- Parameters and body of a lambda, which may stand in one quote. -/
def lambda? : Expr → Option (List Param × Expr)
  | lambda params body => some (params, body)
  | quote (lambda params body) => some (params, body)
  | _ => none

def isNullConstant : Expr → Bool
  | const v _ => v.isNull
  | _ => false

/-- The children that supply rows, by position. -/
def isRowSourceChild : Expr → Nat → Bool
  | derivedTable .., i => i == 0
  | navigationJoin .., i => i < 2
  | pivotTable .., i => i == 0
  | _, _ => false

/-- What kind of table an expression is, if it is one. -/
inductive TableKind where
  | base
  | derived
  | function
  | pivot
deriving DecidableEq, Repr

def table? : Expr → Option (TableKind × Alias)
  | baseTable row .. => some (.base, row)
  | derivedTable row _ => some (.derived, row)
  | tableFunction row _ _ => some (.function, row)
  | pivotTable row .. => some (.pivot, row)
  | _ => none

end Expr

end QueryLowering
