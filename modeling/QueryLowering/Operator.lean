import QueryLowering.Expr.Build

/-!
Query operators. Each exists in a family that works on sequences in memory and takes plain lambdas,
or in a family that works on deferred queries and takes quoted lambdas, and most exist in both. An
overload is chosen by the shapes of the arguments alone.
-/

namespace QueryLowering

/-- The two families of operators. -/
inductive Family where
  | inMemory
  | deferred
deriving DecidableEq, Repr

/-- The owner of the methods of a family. -/
def Family.owner : Family → String
  | inMemory => "Enumerable"
  | deferred => "Queryable"

def Family.ofOwner? (owner : String) : Option Family :=
  if owner = Family.inMemory.owner then some .inMemory
  else if owner = Family.deferred.owner then some .deferred
  else none

/-- What a family calls a collection of elements. -/
def Family.collection : Family → DataType → DataType
  | inMemory => .sequence
  | deferred => .queryable

/-- Calls that only record how a query is to be run. -/
inductive Marker where
  | tagWith
  | asTracking
  | asNoTracking
  | ignoreQueryFilters
deriving DecidableEq, Repr

def Marker.name : Marker → String
  | tagWith => "TagWith"
  | asTracking => "AsTracking"
  | asNoTracking => "AsNoTracking"
  | ignoreQueryFilters => "IgnoreQueryFilters"

def Marker.all : List Marker := [tagWith, asTracking, asNoTracking, ignoreQueryFilters]

/-- The marker that a method stands for; only the deferred family has markers. -/
def Marker.of? (m : Method) : Option Marker :=
  if m.owner = Family.deferred.owner then Marker.all.find? fun k => k.name == m.name else none

/-- What can be told of an argument without looking at the types of its parts. -/
inductive ArgShape where
  | sequence
  | queryable
  | lambda (arity : Nat)
  | quotedLambda (arity : Nat)
  | value
deriving DecidableEq, Repr

namespace ArgShape

def text : ArgShape → String
  | sequence => "Sequence"
  | queryable => "Queryable"
  | lambda n => "Lambda(" ++ toString n ++ ")"
  | quotedLambda n => "QuotedLambda(" ++ toString n ++ ")"
  | value => "Value"

/-- The shape of an argument. A quote of anything but a lambda is a plain value. -/
def of (e : Expr) : ArgShape :=
  match e with
  | .lambda params _ => lambda params.length
  | .quote (.lambda params _) => quotedLambda params.length
  | .quote _ => value
  | e =>
    match e.type with
    | .queryable _ => queryable
    | .sequence _ => sequence
    | _ => value

/-- A parameter takes arguments of its own shape, and a sequence may also be a deferred query. -/
def accepts (want arg : ArgShape) : Bool := want == arg || (want == sequence && arg == queryable)

/-- Is this the shape of something that supplies rows? -/
def isSource : ArgShape → Bool
  | sequence | queryable => true
  | _ => false

end ArgShape

/-- The shape of a source argument of a family. -/
def Family.source : Family → ArgShape
  | inMemory => .sequence
  | deferred => .queryable

/-- The shape of a lambda argument of a family. -/
def Family.lambda : Family → Nat → ArgShape
  | inMemory => .lambda
  | deferred => .quotedLambda

/-- How the result of an operator is typed; positions are those of arguments. -/
inductive ResultRule where
  | source
  | projection (lambda : Nat)
  | flatten (lambda : Nat)
  | element
  | lambdaResult (lambda : Nat)
  | boolean
  | count
  | asQueryable
  | passthrough
deriving DecidableEq, Repr

def ResultRule.text : ResultRule → String
  | source => "Source"
  | projection i => "Projection(" ++ toString i ++ ")"
  | flatten i => "Flatten(" ++ toString i ++ ")"
  | element => "Element"
  | lambdaResult i => "LambdaResult(" ++ toString i ++ ")"
  | boolean => "Boolean"
  | count => "Count"
  | asQueryable => "AsQueryable"
  | passthrough => "Passthrough"

/-- One overload of an operator. -/
structure Operator where
  family : Family
  name : String
  params : List ArgShape
  result : ResultRule
deriving DecidableEq, Repr

namespace Operator

/-- The overloads that exist in both families. -/
def shared (f : Family) : List Operator :=
  [⟨f, "Where", [f.source, f.lambda 1], .source⟩,
   ⟨f, "Where", [f.source, f.lambda 2], .source⟩,
   ⟨f, "Select", [f.source, f.lambda 1], .projection 1⟩,
   ⟨f, "Select", [f.source, f.lambda 2], .projection 1⟩,
   ⟨f, "SelectMany", [f.source, f.lambda 1], .flatten 1⟩,
   ⟨f, "SelectMany", [f.source, f.lambda 1, f.lambda 2], .projection 2⟩,
   ⟨f, "OrderBy", [f.source, f.lambda 1], .source⟩,
   ⟨f, "OrderByDescending", [f.source, f.lambda 1], .source⟩,
   ⟨f, "ThenBy", [f.source, f.lambda 1], .source⟩,
   ⟨f, "ThenByDescending", [f.source, f.lambda 1], .source⟩,
   ⟨f, "Take", [f.source, .value], .source⟩,
   ⟨f, "Skip", [f.source, .value], .source⟩,
   ⟨f, "Distinct", [f.source], .source⟩,
   ⟨f, "DefaultIfEmpty", [f.source], .source⟩,
   ⟨f, "First", [f.source], .element⟩,
   ⟨f, "First", [f.source, f.lambda 1], .element⟩,
   ⟨f, "FirstOrDefault", [f.source], .element⟩,
   ⟨f, "FirstOrDefault", [f.source, f.lambda 1], .element⟩,
   ⟨f, "Single", [f.source], .element⟩,
   ⟨f, "Single", [f.source, f.lambda 1], .element⟩,
   ⟨f, "SingleOrDefault", [f.source], .element⟩,
   ⟨f, "SingleOrDefault", [f.source, f.lambda 1], .element⟩,
   ⟨f, "Last", [f.source], .element⟩,
   ⟨f, "Last", [f.source, f.lambda 1], .element⟩,
   ⟨f, "LastOrDefault", [f.source], .element⟩,
   ⟨f, "LastOrDefault", [f.source, f.lambda 1], .element⟩,
   ⟨f, "Any", [f.source], .boolean⟩,
   ⟨f, "Any", [f.source, f.lambda 1], .boolean⟩,
   ⟨f, "All", [f.source, f.lambda 1], .boolean⟩,
   ⟨f, "Contains", [f.source, .value], .boolean⟩,
   ⟨f, "Count", [f.source], .count⟩,
   ⟨f, "Count", [f.source, f.lambda 1], .count⟩,
   ⟨f, "Sum", [f.source, f.lambda 1], .lambdaResult 1⟩,
   ⟨f, "Min", [f.source, f.lambda 1], .lambdaResult 1⟩,
   ⟨f, "Max", [f.source, f.lambda 1], .lambdaResult 1⟩,
   ⟨f, "Average", [f.source, f.lambda 1], .lambdaResult 1⟩,
   ⟨f, "Join", [f.source, .sequence, f.lambda 1, f.lambda 1, f.lambda 2], .projection 4⟩,
   ⟨f, "GroupJoin", [f.source, .sequence, f.lambda 1, f.lambda 1, f.lambda 2], .projection 4⟩]

def inMemoryOnly : List Operator := [⟨.inMemory, "ToList", [.sequence], .source⟩]

def deferredOnly : List Operator :=
  [⟨.deferred, "LeftJoin",
      [.queryable, .sequence, .quotedLambda 1, .quotedLambda 1, .quotedLambda 2], .projection 4⟩,
   ⟨.deferred, "AsQueryable", [.sequence], .asQueryable⟩,
   ⟨.deferred, "TagWith", [.queryable, .value], .passthrough⟩,
   ⟨.deferred, "AsTracking", [.queryable], .passthrough⟩,
   ⟨.deferred, "AsNoTracking", [.queryable], .passthrough⟩,
   ⟨.deferred, "IgnoreQueryFilters", [.queryable], .passthrough⟩]

/-- All overloads. No two of one name in one family accept the same shapes. -/
def all : List Operator :=
  shared .inMemory ++ inMemoryOnly ++ shared .deferred ++ deferredOnly

/-- Operators that keep the rows of their first argument as they are. -/
def rowPreserving : List String :=
  ["Where", "OrderBy", "OrderByDescending", "ThenBy", "ThenByDescending", "Take", "Skip",
   "Distinct", "DefaultIfEmpty", "AsQueryable", "TagWith", "AsTracking", "AsNoTracking",
   "IgnoreQueryFilters"]

/-- Operators that pick one row. -/
def elementPicking : List String :=
  ["First", "FirstOrDefault", "Single", "SingleOrDefault", "Last", "LastOrDefault"]

def named (op : Operator) (owner name : String) : Bool :=
  op.family.owner == owner && op.name == name

/-- Is there an operator of this owner and name, whatever its parameters? -/
def exists? (owner name : String) : Bool := all.any (·.named owner name)

def acceptsShapes : List ArgShape → List ArgShape → Bool
  | [], [] => true
  | want :: wants, arg :: args => want.accepts arg && acceptsShapes wants args
  | _, _ => false

/-- The overload that accepts arguments of the given shapes. -/
def find? (owner name : String) (shapes : List ArgShape) : Option Operator :=
  all.find? fun op => op.named owner name && acceptsShapes op.params shapes

/-- The overload that accepts the given arguments. -/
def findFor? (m : Method) (args : List Expr) : Option Operator :=
  find? m.owner m.name (args.map ArgShape.of)

/-- The row type of the first argument. -/
def sourceElement (op : Operator) (args : List Expr) : Except Failure DataType :=
  match args.head?.bind fun a => a.type.element? with
  | some t => .ok t
  | none => .error (.unsupported ("Source for " ++ op.name ++ " is not a sequence"))

/-- The result type of the lambda at a position. -/
def lambdaResultAt (op : Operator) (args : List Expr) (i : Nat) : Except Failure DataType :=
  match args[i]?.bind Expr.lambda? with
  | some (_, body) => .ok body.type
  | none =>
    .error (.unsupported ("Argument " ++ toString i ++ " for " ++ op.name ++ " is not a lambda"))

/-- The type of a call with the given arguments, which need not fit the parameters. -/
def resultType (op : Operator) (args : List Expr) : Except Failure DataType :=
  match op.result with
  | .source => op.family.collection <$> op.sourceElement args
  | .projection i => op.family.collection <$> op.lambdaResultAt args i
  | .flatten i => do
    match (← op.lambdaResultAt args i).element? with
    | some t => .ok (op.family.collection t)
    | none =>
      .error (.unsupported ("Selector for " ++ op.name ++ " doesn't return a sequence"))
  | .element => op.sourceElement args
  | .lambdaResult i => op.lambdaResultAt args i
  | .boolean => .ok .boolean
  | .count => .ok .int32
  | .asQueryable => .queryable <$> op.sourceElement args
  | .passthrough =>
    match args.head? with
    | some a => .ok a.type
    | none => .error (.internalError "Missing source argument")

end Operator

/-- Row types of all sequence arguments, then result types of all lambda arguments. -/
def operatorTypeArgs (args : List Expr) : List DataType :=
  args.filterMap (fun a => a.type.element?) ++
    args.filterMap fun a => a.lambda?.map fun l => l.2.type

/-- Calls an operator: finds the overload and types the call. -/
def callOperator (owner name : String) (args : List Expr) : Except Failure Expr :=
  let shapes := args.map ArgShape.of
  match Operator.find? owner name shapes with
  | some op => do
    let type ← op.resultType args
    return .call ⟨owner, name, operatorTypeArgs args⟩ none args type
  | none =>
    .error ((Failure.unsupported ("No operator overload for " ++ owner ++ "." ++ name)).withField
      "shapes" ("[" ++ ", ".intercalate (shapes.map ArgShape.text) ++ "]"))

end QueryLowering
