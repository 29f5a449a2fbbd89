import QueryLowering.Expr.Build
import QueryLowering.Expr.Text
import QueryLowering.Model
import QueryLowering.Pass.BottomUp

/-!
Key comparison: entities are equal if their keys are. A comparison of two entities becomes one of
their key properties, and a comparison of an entity with null becomes a test of its key properties.
-/

namespace QueryLowering.Pass.KeyComparison

def incompatible (left right : String) (e : Expr) : Failure :=
  Failure.atNode
    ⟨.incompatibleEntities, "Cannot compare entities of type " ++ left ++ " and " ++ right, [], none⟩ e

def notAnEntity (entity : String) (e : Expr) : Failure :=
  (Failure.unsupported
    ("Cannot compare entity of type " ++ entity ++ " with a non-entity value")).atNode e

def unknownEntity (entity : String) (e : Expr) : Failure :=
  (Failure.unsupported ("Entity type " ++ entity ++ " is not in the model")).atNode e

def entity (model : Model) (name : String) (node : Expr) : Except Failure Entity :=
  match model.entity? name with
  | some entity => .ok entity
  | none => .error (unknownEntity name node)

/-- The property of the declaring side that holds a key property of the row that a navigation
leads to. -/
def foreignKeyProperty? (model : Model) (target : Expr) (navigation : String) (key : Property) :
    Option Property := do
  let declaring ← target.type.entityName?.bind model.entity?
  let n ← declaring.navigation? navigation
  if n.cardinality = .one ∧ n.foreignKeyOnSource then
    let column ← n.foreignKey.find? fun c => c.principal == key.name
    declaring.property? column.dependent
  else none

/-- Access to a key property of an entity. Behind a navigation whose foreign key holds it, the
foreign key is read instead. -/
def keyAccess (model : Model) (e : Expr) (key : Property) : Expr :=
  match e with
  | .member target name _ =>
    match foreignKeyProperty? model target name key with
    | some p => .member target p.name p.type
    | none => .member e key.name key.type
  | _ => .member e key.name key.type

/-- The entity type of an operand; a null literal has none, whatever its type. -/
def operandEntity? (e : Expr) : Option String :=
  if e.isNullConstant then none else e.type.entityName?

/-- How a comparison of entities is made up of comparisons of properties. -/
structure Mode where
  combine : BinaryOp
  compare : BinaryOp
  testNull : UnaryOp
deriving DecidableEq

def Mode.of (equal : Bool) : Mode :=
  if equal then ⟨.and, .eq, .isNull⟩ else ⟨.or, .notEq, .isNotNull⟩

/-- One comparison per key property, in the order of the key. -/
def compareKeys (model : Model) (mode : Mode) (entity : Entity) (left right : Expr) : Option Expr :=
  Expr.foldBinary? mode.combine (entity.keyProperties.map fun key =>
    .binary mode.compare (keyAccess model left key) (keyAccess model right key))

/-- One test for null per key property, in the order of the key. -/
def testKeys (model : Model) (mode : Mode) (entity : Entity) (e : Expr) : Option Expr :=
  Expr.foldBinary? mode.combine (entity.keyProperties.map fun key =>
    .unary mode.testNull (keyAccess model e key))

/-- Compares an entity with something that is not known to be one, which has to be null. -/
def compareWithNull (model : Model) (mode : Mode) (name : String) (e other node : Expr) :
    Except Failure (Option Expr) :=
  if other.isNullConstant then do return testKeys model mode (← entity model name node) e
  else .error (notAnEntity name node)

/-- What an equality or inequality of two operands becomes. -/
def compare (model : Model) (equal : Bool) (left right node : Expr) :
    Except Failure (Option Expr) :=
  let mode := Mode.of equal
  if left.isNullConstant ∧ right.isNullConstant then
    if left.type.entityName?.isSome ∨ right.type.entityName?.isSome then
      .ok (some (.literal (.boolean equal)))
    else .ok none
  else
    match operandEntity? left, operandEntity? right with
    | none, none => .ok none
    | some l, some r =>
      if l = r then do return compareKeys model mode (← entity model l node) left right
      else .error (incompatible l r node)
    | some l, none => compareWithNull model mode l left right node
    | none, some r => compareWithNull model mode r right left node

def rule (model : Model) : Rule
  | .binary .eq left right => compare model true left right (.binary .eq left right)
  | .binary .notEq left right => compare model false left right (.binary .notEq left right)
  | _ => .ok none

def run (model : Model) (e : Expr) : Except Failure Expr := bottomUp (rule model) e

end QueryLowering.Pass.KeyComparison
