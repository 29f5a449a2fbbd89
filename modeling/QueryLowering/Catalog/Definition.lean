import QueryLowering.Catalog
import QueryLowering.Model.Definition

/-!
Reading function catalogs from their written definitions.
-/

namespace QueryLowering

/-- Reads a signature whose result type may nest `depth` lists and objects. -/
def Signature.ofDocument? (depth : Nat) (d : Document) : Option Signature := do
  let [some positional, variadic, some result] ←
    d.fields? ["positional_args", "variadic_arg", "return_type"] | none
  return ⟨← Document.listOf? TypeTag.ofDocument? positional,
    ← Document.orDefault (Document.optional? TypeTag.ofDocument?) none variadic,
    ← DataType.ofDocument? depth result⟩

def DbFunction.Kind.ofDocument? (d : Document) : Option DbFunction.Kind :=
  match d.plainVariant? with
  | some "Scalar" => some .scalar
  | some "TableValued" => some .tableValued
  | _ => none

def DbFunction.ofDocument? (depth : Nat) (d : Document) : Option DbFunction := do
  let [some name, schema, some kind, some signature] ←
    d.fields? ["name", "schema", "kind", "signature"] | none
  return ⟨← name.string?, ← Document.orDefault (Document.optional? Document.string?) none schema,
    ← DbFunction.Kind.ofDocument? kind, ← Signature.ofDocument? depth signature⟩

def Method.ofDocument? (depth : Nat) (d : Document) : Option Method := do
  let [some owner, some name, typeArgs] ← d.fields? ["owner", "name", "generic_args"] | none
  return ⟨← owner.string?, ← name.string?,
    ← Document.orDefault (Document.listOf? (DataType.ofDocument? depth)) [] typeArgs⟩

/-- Reads a function set in whose parts types may nest `depth` lists and objects. -/
def FunctionSet.ofDocument? (depth : Nat) (d : Document) : Option FunctionSet := do
  let [some method, some overloads] ← d.fields? ["method", "overloads"] | none
  return ⟨← Method.ofDocument? (depth - 2) method,
    ← Document.listOf? (DbFunction.ofDocument? (depth - 3)) overloads⟩

namespace Catalog

def setsOf? (d : Document) : Option (List FunctionSet) := do
  let [some functions] ← d.fields? ["functions"] | none
  Document.listOf? (FunctionSet.ofDocument? (Document.depthLimit - 3)) functions

/-- Reads a catalog and registers its sets one after the other. -/
def ofDocument (d : Option Document) : Except Failure Catalog :=
  match d.bind setsOf? with
  | some sets => sets.foldlM register empty
  | none => .error (.internalError "Failed to parse function catalog")

def ofText (text : String) : Except Failure Catalog := ofDocument (Document.parse? text)

end Catalog

end QueryLowering
