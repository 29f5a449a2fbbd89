/-!
Structured documents, as definitions of models and catalogs are written in, and how records,
variants and lists are read from them.
-/

namespace QueryLowering

/-- A document. A string is `none` if one of its escapes stands for half a character: such a string
may stand where it is not read. Members of an object keep their order and may repeat. -/
inductive Document where
  | null
  | bool (value : Bool)
  | number (spelling : String)
  | string (value : Option String)
  | list (items : List Document)
  | object (members : List (Option String × Document))
deriving Repr, Inhabited

namespace Document

def string? : Document → Option String
  | string value => value
  | _ => none

def bool? : Document → Option Bool
  | bool value => some value
  | _ => none

def list? : Document → Option (List Document)
  | list items => some items
  | _ => none

/-- The value of a member that is given at most once. -/
def member? (members : List (String × Document)) (name : String) : Option (Option Document) :=
  match members.filter fun m => m.1 == name with
  | [] => some none
  | [m] => some (some m.2)
  | _ => none

/-- The fields of a record, in the order of their names. They are given by name, where unknown names
are skipped and no known name may repeat, or by position, where fields at the end may be left out. -/
def fields? (names : List String) : Document → Option (List (Option Document))
  | object members => do
    let named ← members.mapM fun m => m.1.map (·, m.2)
    names.mapM (member? named)
  | list items =>
    if items.length ≤ names.length then
      some (items.map some ++ List.replicate (names.length - items.length) none)
    else none
  | _ => none

/-- The name and content of a variant; a name alone stands for a variant without content. -/
def variant? : Document → Option (String × Option Document)
  | string (some name) => some (name, none)
  | object [(some name, content)] => some (name, some content)
  | _ => none

/-- The name of a variant without content, which may also be given an explicit null. -/
def plainVariant? (d : Document) : Option String :=
  match d.variant? with
  | some (name, none) => some name
  | some (name, some null) => some name
  | _ => none

/-- A value for which null stands for its absence. -/
def optional? {α : Type} (read : Document → Option α) : Document → Option (Option α)
  | null => some none
  | d => some <$> read d

/-- A field that may be missing. -/
def orDefault {α : Type} (read : Document → Option α) (default : α) : Option Document → Option α
  | some d => read d
  | none => some default

/-- A list of values of one kind. -/
def listOf? {α : Type} (read : Document → Option α) (d : Document) : Option (List α) := do
  (← d.list?).mapM read

end Document

end QueryLowering
