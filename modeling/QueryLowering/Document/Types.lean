import QueryLowering.DataType
import QueryLowering.Document

/-!
Reading data types and type tags from documents.
-/

namespace QueryLowering

def TypeTag.all : List TypeTag :=
  [any, null, boolean, int32, int64, float64, decimal, utf8, timestamp, entity, sequence, queryable,
   record, function]

def TypeTag.ofName? (name : String) : Option TypeTag := TypeTag.all.find? fun t => t.text == name

def TypeTag.ofDocument? (d : Document) : Option TypeTag := d.plainVariant?.bind TypeTag.ofName?

/-- The types without parts. -/
def DataType.plain : List DataType :=
  [.null, .boolean, .int32, .int64, .float64, .decimal, .utf8, .timestamp]

def DataType.ofName? (name : String) : Option DataType := DataType.plain.find? fun t => t.text == name

/-- Reads a data type in which at most `depth` lists and objects are nested. -/
def DataType.ofDocument? (depth : Nat) (d : Document) : Option DataType :=
  match d.variant? with
  | none => none
  | some (name, none) => DataType.ofName? name
  | some (name, some content) =>
    if depth = 0 then none
    else
      match name, content with
      | "Entity", .string (some n) => some (.entity n)
      | "Sequence", content => .sequence <$> DataType.ofDocument? (depth - 1) content
      | "Queryable", content => .queryable <$> DataType.ofDocument? (depth - 1) content
      | "Anonymous", .list items =>
        if depth - 1 = 0 then none
        else do
          let members ← items.mapM fun
            | .list [.string (some member), t] =>
              if depth - 2 = 0 then none
              else (member, ·) <$> DataType.ofDocument? (depth - 3) t
            | _ => none
          return .record members
      | "Function", content =>
        if depth - 1 = 0 then none
        else
          match content.fields? ["params", "ret"] with
          | some [some (.list params), some ret] =>
            if depth - 2 = 0 then none
            else do
              let params ← params.mapM fun t => DataType.ofDocument? (depth - 3) t
              return .function params (← DataType.ofDocument? (depth - 2) ret)
          | _ => none
      | name, .null => DataType.ofName? name
      | _, _ => none
termination_by depth

end QueryLowering
