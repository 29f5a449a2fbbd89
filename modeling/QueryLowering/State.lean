import QueryLowering.Catalog
import QueryLowering.Expr.Equality
import QueryLowering.Model

/-!
What passes share while they lower one query: settings recorded by markers, the row sources met so
far, the joins made for navigations, and the counter of aliases.
-/

namespace QueryLowering

inductive Tracking where
  | default
  | tracking
  | noTracking
deriving DecidableEq, Repr

/-- How a query is to be run. -/
structure Metadata where
  tags : List String := []
  tracking : Tracking := .default
  ignoreQueryFilters : Bool := false
deriving DecidableEq, Repr

/-- Where rows come from: a root of the query, or the join with an alias. -/
inductive SourceKey where
  | root (index : Nat)
  | join (row : Alias)
deriving DecidableEq, Repr

/-- The join that was made for a navigation. Its anchor is the root below which it is attached. -/
structure Join where
  row : Alias
  target : String
  anchor : SourceKey
  kind : JoinKind
deriving DecidableEq, Repr

/-- The joins made so far, by the source they start from and the navigation they follow. -/
abbrev JoinTable := List ((SourceKey × String) × Join)

structure State where
  metadata : Metadata := {}
  joins : JoinTable := []
  roots : List DataType := []
  nextAlias : Nat := 0
deriving DecidableEq, Repr

namespace State

def fresh : State := {}

/-- Hands out the next alias. -/
def takeAlias (s : State) : Alias × State := (⟨s.nextAlias⟩, { s with nextAlias := s.nextAlias + 1 })

/-- Registers a root with rows of the given type. -/
def addRoot (s : State) (element : DataType) : SourceKey × State :=
  (.root s.roots.length, { s with roots := s.roots ++ [element] })

def rootType? (s : State) : SourceKey → Option DataType
  | .root i => s.roots[i]?
  | .join _ => none

def findJoin? (s : State) (source : SourceKey) (navigation : String) : Option Join :=
  s.joins.lookup (source, navigation)

/-- Records a join, in place of an earlier one for the same source and navigation. -/
def JoinTable.insert (key : SourceKey × String) (j : Join) : JoinTable → JoinTable
  | [] => [(key, j)]
  | e :: es => if e.1 = key then (key, j) :: es else e :: JoinTable.insert key j es

def insertJoin (s : State) (source : SourceKey) (navigation : String) (j : Join) : State :=
  { s with joins := JoinTable.insert (source, navigation) j s.joins }

def joinWithAlias? (s : State) (a : Alias) : Option Join :=
  (s.joins.map (·.2)).find? fun j => j.row == a

/-- The root below which a source lies. -/
def anchor? (s : State) : SourceKey → Option SourceKey
  | .root i => some (.root i)
  | .join a => (s.joinWithAlias? a).map Join.anchor

/-- May the rows of a source be missing because they were joined from the outside? -/
def isOptional (s : State) : SourceKey → Bool
  | .root _ => false
  | .join a => (s.joinWithAlias? a).any fun j => j.kind == .leftOuter

def joinCount (s : State) : Nat := s.joins.length

end State

/-- What does not change while a query is lowered. -/
structure Context where
  model : Model
  catalog : Catalog
deriving Repr

/-- A step of lowering: it may fail, and what it recorded stays recorded if it does. -/
abbrev StateStep (σ α : Type) := ExceptT Failure (StateM σ) α

/-- Lifts a step that looks only at part of the state. -/
def StateStep.zoom {σ τ α : Type} (get : σ → τ) (set : τ → σ → σ) (step : StateStep τ α) :
    StateStep σ α :=
  ExceptT.mk fun s =>
    let (result, t) := step.run.run (get s)
    (result, set t s)

/-- Lifts a result that does not touch the state. -/
def StateStep.ofExcept {σ α : Type} (result : Except Failure α) : StateStep σ α :=
  ExceptT.mk (pure result)

end QueryLowering
