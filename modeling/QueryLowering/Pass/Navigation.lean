import QueryLowering.Expr.Text
import QueryLowering.Operator
import QueryLowering.State

/-!
Expansion of navigations. A navigation to one row becomes a reference to a joined row, and the join
is attached to the source that the navigation starts from; a navigation to many rows becomes a
filtered subquery over the target.

Each sequence in the tree is a row source with a key: a root of its own, or that of the sequence
whose rows it keeps. The parameters of an operator's lambdas are bound to the keys of the operator's
sequence arguments.
-/

namespace QueryLowering.Pass.Navigation

/-- A join that has been made and not yet been attached to its anchor. -/
structure PendingJoin where
  anchor : SourceKey
  label : JoinLabel
  inner : Expr
  outerKey : Expr
  innerKey : Expr
deriving DecidableEq

/-- The parameters in scope, innermost first, with the sources they range over. -/
abbrev Scope := List (Param × Option SourceKey)

/-- Binds the parameters of a lambda to sources by position. Of two parameters of one name the later
hides the earlier. -/
def Scope.bind (Γ : Scope) (params : List Param) (source : Nat → Option SourceKey) : Scope :=
  (params.zipIdx.map fun p => (p.1, source p.2)).reverse ++ Γ

/-- The source of a parameter: the innermost parameter of its name has to have its type, too. -/
def Scope.source? (Γ : Scope) (p : Param) : Option SourceKey :=
  match Γ.find? fun b => b.1.name == p.name with
  | some (q, key) => if q = p then key else none
  | none => none

/-- The source that an expression is a row of. -/
def rowKey? (Γ : Scope) : Expr → Option SourceKey
  | .param p => Γ.source? p
  | .sourceRef a _ => some (.join a)
  | _ => none

/-- The sequence argument that a lambda parameter ranges over, by operator, position of the lambda
and position of the parameter. -/
def boundSource? (operator : String) (arg param : Nat) : Option Nat :=
  if operator ∈ ["Join", "LeftJoin", "GroupJoin"] ∧ arg = 3 ∧ param = 0 then some 1
  else if operator ∈ ["Join", "LeftJoin"] ∧ arg = 4 ∧ param = 1 then some 1
  else if param = 0 then some 0
  else none

/-- What the expansion keeps beside the state of the query. -/
structure Expansion where
  state : State
  pending : List PendingJoin := []
deriving DecidableEq

abbrev Step := StateStep Expansion

def updateState {α : Type} (f : State → α × State) : Step α :=
  modifyGet fun x => ((f x.state).1, { x with state := (f x.state).2 })

def missingProperty (name : String) (entity : Entity) (node : Expr) : Failure :=
  (Failure.internalError ("Missing property " ++ name ++ " on " ++ entity.name)).atNode node

/-- Access to a property of a row. -/
def property (row : Expr) (entity : Entity) (node : Expr) (name : String) : Except Failure Expr :=
  match entity.property? name with
  | some p => .ok (.member row p.name p.type)
  | none => .error (missingProperty name entity node)

/-- The key of a row: a single column, or an object of columns under the given names. -/
def keyOf (row : Expr) (entity : Entity) (node : Expr) :
    List (String × String) → Except Failure Expr
  | [(_, column)] => property row entity node column
  | columns => do
    return .object (← columns.mapM fun c => do return (c.1, ← property row entity node c.2))

/-- The columns of a foreign key on the side where the navigation starts, named by the principal
columns. -/
def sourceColumns (n : Navigation) : List (String × String) :=
  n.foreignKey.map fun c => (c.principal, if n.foreignKeyOnSource then c.dependent else c.principal)

/-- The columns of a foreign key on the side where the navigation leads to. -/
def targetColumns (n : Navigation) : List (String × String) :=
  n.foreignKey.map fun c => (c.principal, if n.foreignKeyOnSource then c.principal else c.dependent)

def unknownTarget (n : Navigation) (node : Expr) : Failure :=
  (Failure.unsupported ("Navigation target " ++ n.target ++ " is not in the model")).atNode node

def target (model : Model) (n : Navigation) (node : Expr) : Except Failure Entity :=
  match model.entity? n.target with
  | some entity => .ok entity
  | none => .error (unknownTarget n node)

/-- The parameter of an outer key selector, which ranges over the rows of the anchor. -/
def anchorParam (s : State) (key : SourceKey) (node : Expr) :
    Except Failure (SourceKey × Param) :=
  match s.anchor? key with
  | none => .error ((Failure.internalError "Navigation reached from an unknown source").atNode node)
  | some anchor =>
    match s.rootType? anchor with
    | none => .error ((Failure.internalError "Missing root source").atNode node)
    | some row => .ok (anchor, ⟨"r", row⟩)

/-- The row that a navigation starts from, as seen from the anchor. -/
def startRow (key : SourceKey) (anchorRow : Param) (declaring : Entity) : Expr :=
  match key with
  | .root _ => .param anchorRow
  | .join a => .sourceRef a declaring.name

/-- A join is an inner join if its navigation is required and starts from rows that are there. -/
def joinKind (s : State) (key : SourceKey) (n : Navigation) : JoinKind :=
  if n.required ∧ s.isOptional key = false then .inner else .leftOuter

/-- What a new join is made of, apart from its alias. -/
structure JoinParts where
  target : Entity
  anchor : SourceKey
  outerKey : Expr
  innerKey : Expr

def joinParts (model : Model) (s : State) (key : SourceKey) (declaring : Entity) (n : Navigation)
    (node : Expr) : Except Failure JoinParts := do
  let target ← target model n node
  let (anchor, r) ← anchorParam s key node
  let i : Param := ⟨"i", .entity target.name⟩
  let outerKey ← keyOf (startRow key r declaring) declaring node (sourceColumns n)
  let innerKey ← keyOf (.param i) target node (targetColumns n)
  return ⟨target, anchor, .lambda [r] outerKey, .lambda [i] innerKey⟩

/-- Records a new join under the next alias and leaves it to be attached. -/
def addJoin (key : SourceKey) (n : Navigation) (parts : JoinParts) (x : Expansion) :
    Alias × Expansion :=
  let (a, s) := x.state.takeAlias
  let kind := joinKind x.state key n
  let inner := Expr.baseTable a parts.target.schema parts.target.table parts.target.name
  (a,
    { state := s.insertJoin key n.name ⟨a, parts.target.name, parts.anchor, kind⟩
      pending := x.pending ++
        [⟨parts.anchor, ⟨a, n.name, kind⟩, inner, parts.outerKey, parts.innerKey⟩] })

/-- A reference to the row that a navigation leads to. There is one join for each source and
navigation. -/
def expandReference (model : Model) (key : SourceKey) (declaring : Entity) (n : Navigation)
    (node : Expr) : Step Expr := do
  let x ← get
  match x.state.findJoin? key n.name with
  | some j => return .sourceRef j.row j.target
  | none =>
    let parts ← StateStep.ofExcept (joinParts model x.state key declaring n node)
    let a ← modifyGet (addJoin key n parts)
    return .sourceRef a parts.target.name

/-- The rows of the target whose foreign key fits the owner. -/
def expandCollection (model : Model) (owner : Expr) (declaring : Entity) (n : Navigation)
    (node : Expr) : Except Failure Expr := do
  let target ← target model n node
  let e : Param := ⟨"e", .entity target.name⟩
  let tests ← ((targetColumns n).zip (sourceColumns n)).mapM fun c => do
    let left ← property (.param e) target node c.1.2
    let right ← property owner declaring node c.2.2
    return Expr.binary .eq left right
  match Expr.foldBinary? .and tests with
  | some test =>
    callOperator Family.deferred.owner "Where"
      [.entitySet target.name, .quote (.lambda [e] test)]
  | none => throw ((Failure.internalError "Navigation without foreign key").atNode node)

/-- Expands the access of a member of a row, if that is a navigation. -/
def expandMember (model : Model) (Γ : Scope) (row : Expr) (name : String) (type : DataType) :
    Step Expr :=
  let node := Expr.member row name type
  match row.type.entityName?.bind model.entity? with
  | none => return node
  | some declaring =>
    match declaring.navigation? name with
    | none => return node
    | some n =>
      match n.cardinality, rowKey? Γ row with
      | .one, some key => expandReference model key declaring n node
      | .one, none => return node
      | .many, _ => StateStep.ofExcept (expandCollection model row declaring n node)

/-- Joins that have become ready are put around a source, the oldest innermost. -/
def attachAll (source : Expr) (joins : List PendingJoin) : Expr :=
  joins.foldl (fun e j => .navigationJoin j.label e j.inner j.outerKey j.innerKey) source

/-- Attaches the pending joins of the root that a key lies below. -/
def attach (key : SourceKey) (source : Expr) : Step Expr :=
  modifyGet fun x =>
    let anchor := (x.state.anchor? key).getD key
    (attachAll source (x.pending.filter fun j => j.anchor == anchor),
      { x with pending := x.pending.filter fun j => !(j.anchor == anchor) })

/-- Gives a sequence without a key a root of its own. -/
def asSource : Expr × Option SourceKey → Step (Expr × SourceKey)
  | (e, some key) => return (e, key)
  | (e, none) => do
    return (e, ← updateState fun s => s.addRoot (e.type.element?.getD .null))

/-- The key of the rows that an operator gives. -/
def resultKey (name : String) (first : Option SourceKey) (e : Expr) : Step (Option SourceKey) :=
  if name ∈ Operator.rowPreserving then return first
  else
    match e.type.element? with
    | some element => some <$> updateState fun s => s.addRoot element
    | none => return none

/-- Rebuilds an operator call from its expanded arguments. A conversion of what is deferred already
is left out. -/
def rebuild (call : Expr) (name : String) (args : List Expr) (first : Option SourceKey) :
    Step (Expr × Option SourceKey) :=
  match args with
  | source :: _ =>
    if name = "AsQueryable" ∧ source.type.isQueryable then return (source, first) else finish
  | [] => finish
where
  finish : Step (Expr × Option SourceKey) := do
    let e ← StateStep.ofExcept (call.withChildren args)
    return (e, ← resultKey name first e)

/-- The sources of the parameters of a lambda argument, given the keys of the sequence arguments.
Other arguments have no parameters. -/
def argSources (operator : String) (keys : List SourceKey) (position : Nat) (arg : Expr) :
    Nat → Option SourceKey :=
  match ArgShape.of arg with
  | .lambda _ | .quotedLambda _ => fun i => (boundSource? operator position i).bind (keys[·]?)
  | _ => fun _ => none

/-- Expands all navigations of an expression. If it is a lambda, quoted or not, its parameters range
over the given sources. An operator call also gives the key of its rows: its sequence arguments are
expanded first, then the others, and joins found on the way are attached to the sequence arguments
at the end. -/
def expand (model : Model) (Γ : Scope) (bound : Nat → Option SourceKey) (e : Expr) :
    Step (Expr × Option SourceKey) :=
  match e with
  | .call m receiver args type =>
    if (Operator.findFor? m args).isSome then do
      let sources ← args.attach.mapM fun a =>
        if (ArgShape.of a.1).isSource then do
          return some (← asSource (← expand model Γ (fun _ => none) a.1))
        else return none
      let keys := sources.filterMap fun s => s.map (·.2)
      let args' ← (args.attach.zip sources).zipIdx.mapM fun a =>
        match a.1.2 with
        | some (source, _) => return source
        | none => do return (← expand model Γ (argSources m.name keys a.2 a.1.1.1) a.1.1.1).1
      let args'' ← (args'.zip sources).mapM fun a =>
        match a.2 with
        | some (_, key) => attach key a.1
        | none => return a.1
      rebuild (.call m receiver args type) m.name args'' keys.head?
    else do
      let e ← (Expr.call m receiver args type).traverse fun c _ =>
        Prod.fst <$> expand model Γ (fun _ => none) c
      return (e, none)
  | .quote inner => do
    return (.quote (← expand model Γ bound inner).1, none)
  | .lambda params body => do
    return (.lambda params (← expand model (Γ.bind params bound) (fun _ => none) body).1, none)
  | .member row name type => do
    let row ← expand model Γ (fun _ => none) row
    return (← expandMember model Γ row.1 name type, none)
  | e => do
    return (← e.traverse fun c _ => Prod.fst <$> expand model Γ (fun _ => none) c, none)
termination_by e
decreasing_by
  · exact Expr.sizeOf_lt_of_mem_children (List.mem_append_right _ a.2)
  · exact Expr.sizeOf_lt_of_mem_children (List.mem_append_right _ a.1.1.2)
  · exact Expr.sizeOf_lt_of_mem_children ‹_›
  · exact Expr.sizeOf_lt_of_mem_children (by simp [Expr.children])
  · exact Expr.sizeOf_lt_of_mem_children (by simp [Expr.children])
  · exact Expr.sizeOf_lt_of_mem_children (by simp [Expr.children])
  · exact Expr.sizeOf_lt_of_mem_children ‹_›

/-- Expands a whole query, after which no join may be left over. -/
def run (model : Model) (e : Expr) : StateStep State Expr :=
  ExceptT.mk fun s =>
    match (expand model [] (fun _ => none) e).run.run { state := s } with
    | (.error f, x) => (.error f, x.state)
    | (.ok (e, _), x) =>
      match x.pending with
      | [] => (.ok e, x.state)
      | j :: _ =>
        (.error (((Failure.internalError "Navigation join was never attached to a row source").withField
            "alias" j.label.row.text).withField "navigation" j.label.navigation), x.state)

end QueryLowering.Pass.Navigation
