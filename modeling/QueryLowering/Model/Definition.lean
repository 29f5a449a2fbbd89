import QueryLowering.Document.Parser
import QueryLowering.Document.Types
import QueryLowering.Model

/-!
Reading models from their written definitions.
-/

namespace QueryLowering

/-- How deeply lists and objects may be nested in a definition. -/
def Document.depthLimit : Nat := 127

def Property.ofDocument? (d : Document) : Option Property := do
  let [some name, some type, nullable] ← d.fields? ["name", "datatype", "nullable"] | none
  return ⟨← name.string?, ← DataType.ofDocument? (Document.depthLimit - 5) type,
    ← Document.orDefault Document.bool? false nullable⟩

def Cardinality.ofDocument? (d : Document) : Option Cardinality :=
  match d.plainVariant? with
  | some "One" => some .one
  | some "Many" => some .many
  | _ => none

def ForeignKeyColumn.ofDocument? (d : Document) : Option ForeignKeyColumn := do
  let [some dependent, some principal] ← d.fields? ["dependent", "principal"] | none
  return ⟨← dependent.string?, ← principal.string?⟩

def Navigation.ofDocument? (d : Document) : Option Navigation := do
  let [some name, some target, some cardinality, required, some key, some onSource] ←
    d.fields? ["name", "target", "cardinality", "required", "foreign_key", "foreign_key_on_source"]
    | none
  return ⟨← name.string?, ← target.string?, ← Cardinality.ofDocument? cardinality,
    ← Document.orDefault Document.bool? false required,
    ← Document.listOf? ForeignKeyColumn.ofDocument? key, ← onSource.bool?⟩

def Entity.ofDocument? (d : Document) : Option Entity := do
  let [some name, some table, schema, some properties, some key, navigations] ←
    d.fields? ["name", "table", "schema", "properties", "key", "navigations"] | none
  return ⟨← name.string?, ← table.string?,
    ← Document.orDefault (Document.optional? Document.string?) none schema,
    ← Document.listOf? Property.ofDocument? properties,
    ← Document.listOf? Document.string? key,
    ← Document.orDefault (Document.listOf? Navigation.ofDocument?) [] navigations⟩

namespace Model

def entitiesOf? (d : Document) : Option (List Entity) := do
  let [some entities] ← d.fields? ["entities"] | none
  Document.listOf? Entity.ofDocument? entities

/-- Reads and validates a model. -/
def ofDocument (d : Option Document) : Except Failure Model :=
  match d.bind entitiesOf? with
  | some entities => ofEntities entities
  | none => .error (.internalError "Failed to parse model definition")

def ofText (text : String) : Except Failure Model := ofDocument (Document.parse? text)

end Model

end QueryLowering
