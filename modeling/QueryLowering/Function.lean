import QueryLowering.DataType
import QueryLowering.Failure

/-!
Database functions: signatures, implicit casts, and the choice among the overloads of one method.
The tables of cast scores make an exact match worth more than any sequence of casts.
-/

namespace QueryLowering

/-- A method of the host program, named by its owner; type arguments do not tell methods apart. -/
structure Method where
  owner : String
  name : String
  typeArgs : List DataType := []
deriving DecidableEq, Repr

def Method.text (m : Method) : String := m.owner ++ "." ++ m.name

/-- Does the method bear this owner and name? -/
def Method.is (m : Method) (owner name : String) : Bool := m.owner == owner && m.name == name

/-- Score of an argument that needs no cast. -/
def sameTypeScore : Nat := 800

/-- Score of an argument for a parameter of any type. -/
def anyTypeScore : Nat := 50

/-- How good it is to have to cast to this type: narrower targets are better. -/
def castTargetScore : TypeTag → Nat
  | .boolean => 200
  | .int32 => 171
  | .int64 => 161
  | .decimal => 131
  | .float64 => 121
  | .timestamp => 111
  | .utf8 => 1
  | _ => 100

/-- May a value of the first type stand where one of the second is wanted? Null may stand
everywhere, numbers may be widened. -/
def castable : TypeTag → TypeTag → Bool
  | .null, _ => true
  | .int32, .int64 | .int32, .float64 | .int32, .decimal => true
  | .int64, .float64 | .int64, .decimal => true
  | .decimal, .float64 => true
  | _, _ => false

def castScore? (given want : TypeTag) : Option Nat :=
  if given = want then some sameTypeScore
  else if castable given want then some (castTargetScore want)
  else none

/-- Parameters by position, then any number of further ones if there is a variadic type. -/
structure Signature where
  positional : List TypeTag
  variadic : Option TypeTag := none
  result : DataType
deriving DecidableEq, Repr

namespace Signature

def arityMatches (s : Signature) (count : Nat) : Bool :=
  if s.variadic.isSome then s.positional.length ≤ count else count == s.positional.length

/-- The parameter type at a position. -/
def expected? (s : Signature) (i : Nat) : Option TypeTag := s.positional[i]?.or s.variadic

/-- Does the parameter at position `i` have exactly this type? A parameter of any type never has. -/
def exactAt (s : Signature) (i : Nat) (input : DataType) : Bool :=
  match s.expected? i with
  | some .any | none => false
  | some want => input.tag == want

/-- Score of one argument. -/
def scoreAt? (s : Signature) (i : Nat) (input : DataType) : Option Nat :=
  match s.expected? i with
  | none => none
  | some .any => some anyTypeScore
  | some want => castScore? input.tag want

def exactFrom (s : Signature) : Nat → List DataType → Bool
  | _, [] => true
  | i, t :: ts => s.exactAt i t && s.exactFrom (i + 1) ts

def scoreFrom? (s : Signature) : Nat → List DataType → Option Nat
  | _, [] => some 0
  | i, t :: ts => do return (← s.scoreAt? i t) + (← s.scoreFrom? (i + 1) ts)

def exactMatch (s : Signature) (inputs : List DataType) : Bool :=
  s.arityMatches inputs.length && s.exactFrom 0 inputs

/-- Sum of the argument scores; none if an argument cannot be cast or the count is wrong. -/
def score? (s : Signature) (inputs : List DataType) : Option Nat :=
  if s.arityMatches inputs.length then s.scoreFrom? 0 inputs else none

def text (s : Signature) : String :=
  let params := s.positional.map TypeTag.text ++ (s.variadic.map fun t => t.text ++ "...").toList
  "(" ++ ", ".intercalate params ++ ") -> " ++ s.result.text

end Signature

inductive DbFunction.Kind where
  | scalar
  | tableValued
deriving DecidableEq, Repr

structure DbFunction where
  name : String
  schema : Option String := none
  kind : DbFunction.Kind
  signature : Signature
deriving DecidableEq, Repr

namespace DbFunction

def isTableValued (f : DbFunction) : Bool := f.kind == .tableValued

def qualifiedName (f : DbFunction) : String :=
  match f.schema with
  | some schema => schema ++ "." ++ f.name
  | none => f.name

end DbFunction

/-- The functions that a method may stand for. -/
structure FunctionSet where
  method : Method
  overloads : List DbFunction
deriving DecidableEq, Repr

namespace FunctionSet

/-- The overloads that accept the inputs, with their scores. -/
def scored (s : FunctionSet) (inputs : List DataType) : List (Nat × DbFunction) :=
  s.overloads.filterMap fun f => (f.signature.score? inputs).map (·, f)

/-- The greatest score and all overloads that reach it, in declared order. -/
def best : List (Nat × DbFunction) → Nat × List DbFunction
  | [] => (0, [])
  | (score, f) :: rest =>
    match best rest with
    | (_, []) => (score, [f])
    | (top, fs) =>
      if top < score then (score, [f]) else if score < top then (top, fs) else (top, f :: fs)

def inputsText (inputs : List DataType) : String := ", ".intercalate (inputs.map DataType.text)

def ambiguous (s : FunctionSet) (inputs : List DataType) : Failure :=
  ⟨.unresolvedOverload,
    "Ambiguous call to " ++ s.method.text ++ " with inputs (" ++ inputsText inputs ++ ")", [], none⟩

def unmatched (s : FunctionSet) (inputs : List DataType) : Failure :=
  Failure.withField
    ⟨.unresolvedOverload,
      "No overload of " ++ s.method.text ++ " accepts inputs (" ++ inputsText inputs ++ ")", [], none⟩
    "candidates" (", ".intercalate (s.overloads.map fun f => f.signature.text))

/-- The first exact match, otherwise the one overload with the greatest score. -/
def resolve (s : FunctionSet) (inputs : List DataType) : Except Failure DbFunction :=
  match s.overloads.find? fun f => f.signature.exactMatch inputs with
  | some f => .ok f
  | none =>
    match (best (s.scored inputs)).2 with
    | [] => .error (s.unmatched inputs)
    | [f] => .ok f
    | _ => .error (s.ambiguous inputs)

end FunctionSet

end QueryLowering
