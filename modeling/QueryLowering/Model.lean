import QueryLowering.DataType
import QueryLowering.Failure

/-!
Entity models: entity types with properties, keys and navigations. A validated model has its entity
types in order of their names, and its navigations lead to known entity types along foreign keys
whose columns exist.
-/

namespace QueryLowering

structure Property where
  name : String
  type : DataType
  nullable : Bool := false
deriving DecidableEq, Repr

/-- How many rows a navigation leads to. -/
inductive Cardinality where
  | one
  | many
deriving DecidableEq, Repr

/-- A column of the dependent side and the key column of the principal side that it refers to. -/
structure ForeignKeyColumn where
  dependent : String
  principal : String
deriving DecidableEq, Repr

/-- A relationship to another entity type. The foreign key is held by the declaring entity type or
by the target. -/
structure Navigation where
  name : String
  target : String
  cardinality : Cardinality
  required : Bool := false
  foreignKey : List ForeignKeyColumn
  foreignKeyOnSource : Bool
deriving DecidableEq, Repr

def Navigation.type (n : Navigation) : DataType :=
  match n.cardinality with
  | .one => .entity n.target
  | .many => .sequence (.entity n.target)

structure Entity where
  name : String
  table : String
  schema : Option String := none
  properties : List Property
  key : List String
  navigations : List Navigation := []
deriving DecidableEq, Repr

namespace Entity

def property? (e : Entity) (name : String) : Option Property :=
  e.properties.find? fun p => p.name == name

def navigation? (e : Entity) (name : String) : Option Navigation :=
  e.navigations.find? fun n => n.name == name

/-- The key properties in the order of the key. -/
def keyProperties (e : Entity) : List Property := e.key.filterMap e.property?

/-- The type of a member; a property hides a navigation of the same name. -/
def memberType? (e : Entity) (member : String) : Option DataType :=
  match e.property? member with
  | some p => some p.type
  | none => (e.navigation? member).map Navigation.type

end Entity

/-- Entity types in increasing order of their names. -/
structure Model where
  entities : List Entity
deriving DecidableEq, Repr

namespace Model

def empty : Model := ⟨[]⟩

def entity? (m : Model) (name : String) : Option Entity := m.entities.find? fun e => e.name == name

def property? (m : Model) (entity name : String) : Option Property := do
  (← m.entity? entity).property? name

def navigation? (m : Model) (entity name : String) : Option Navigation := do
  (← m.entity? entity).navigation? name

/-- The type of a member of an expression of the given type: null unless that is an entity type
with such a member. -/
def memberType (m : Model) (target : DataType) (member : String) : DataType :=
  ((target.entityName?.bind m.entity?).bind fun e => e.memberType? member).getD .null

/-- Puts an entity type in its place. -/
def insertEntity (e : Entity) : List Entity → List Entity
  | [] => [e]
  | f :: fs => if e.name < f.name then e :: f :: fs else f :: insertEntity e fs

/-- Sorts entity types by name and refuses a second one of the same name. -/
def collect : List Entity → List Entity → Except Failure (List Entity)
  | sorted, [] => .ok sorted
  | sorted, e :: es =>
    if sorted.any fun f => f.name == e.name then
      .error (.internalError ("Duplicate entity type '" ++ e.name ++ "'"))
    else collect (insertEntity e sorted) es

def checkKey (e : Entity) : Except Failure Unit := do
  if e.key.isEmpty then throw (.internalError "Entity type has no key")
  e.key.forM fun k =>
    if (e.property? k).isSome then pure ()
    else throw (.internalError ("Missing key property '" ++ k ++ "'"))

def checkColumn (dependent principal : Entity) (c : ForeignKeyColumn) : Except Failure Unit := do
  if (dependent.property? c.dependent).isNone then
    throw (.internalError
      ("Foreign key property '" ++ c.dependent ++ "' missing on '" ++ dependent.name ++ "'"))
  if !principal.key.contains c.principal then
    throw (.internalError
      ("Foreign key property '" ++ c.principal ++ "' isn't a key of '" ++ principal.name ++ "'"))

def checkNavigation (m : Model) (e : Entity) (n : Navigation) : Except Failure Unit := do
  let some target := m.entity? n.target
    | throw (.internalError
        ("Navigation '" ++ n.name ++ "' targets unknown entity '" ++ n.target ++ "'"))
  if n.cardinality = .many ∧ n.foreignKeyOnSource then
    throw (.internalError
      ("Collection navigation '" ++ n.name ++ "' must have its foreign key on the target"))
  let (dependent, principal) := if n.foreignKeyOnSource then (e, target) else (target, e)
  if n.foreignKey.length ≠ principal.key.length then
    throw (.internalError
      ("Foreign key for '" ++ n.name ++ "' doesn't cover the key of '" ++ principal.name ++ "'"))
  n.foreignKey.forM (checkColumn dependent principal)

def checkEntity (m : Model) (e : Entity) : Except Failure Unit := do
  checkKey e
  e.navigations.forM (m.checkNavigation e)

/-- Builds a model and checks every entity type, in order of their names. -/
def ofEntities (entities : List Entity) : Except Failure Model := do
  let m : Model := ⟨← collect [] entities⟩
  m.entities.forM fun e =>
    (m.checkEntity e).mapError fun f => f.withContext ("Invalid entity type '" ++ e.name ++ "'")
  return m

end Model

end QueryLowering
