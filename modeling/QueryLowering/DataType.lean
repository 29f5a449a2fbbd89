/-!
Data types of query expressions, and the flat tags that function signatures are written with.
-/

namespace QueryLowering

/-- A `sequence` is held in memory, a `queryable` is a deferred query over rows of the element type;
a `record` is an object with named members in declared order. -/
inductive DataType where
  | null
  | boolean
  | int32
  | int64
  | float64
  | decimal
  | utf8
  | timestamp
  | entity (name : String)
  | sequence (element : DataType)
  | queryable (element : DataType)
  | record (members : List (String × DataType))
  | function (params : List DataType) (result : DataType)
deriving Repr, Inhabited

/-- The outermost constructor of a data type; `any` stands for every type. -/
inductive TypeTag where
  | any
  | null
  | boolean
  | int32
  | int64
  | float64
  | decimal
  | utf8
  | timestamp
  | entity
  | sequence
  | queryable
  | record
  | function
deriving DecidableEq, Repr

def TypeTag.text : TypeTag → String
  | any => "Any"
  | null => "Null"
  | boolean => "Boolean"
  | int32 => "Int32"
  | int64 => "Int64"
  | float64 => "Float64"
  | decimal => "Decimal"
  | utf8 => "Utf8"
  | timestamp => "Timestamp"
  | entity => "Entity"
  | sequence => "Sequence"
  | queryable => "Queryable"
  | record => "Anonymous"
  | function => "Function"

namespace DataType

mutual

/-- Structural equality test. -/
def same : DataType → DataType → Bool
  | null, null => true
  | boolean, boolean => true
  | int32, int32 => true
  | int64, int64 => true
  | float64, float64 => true
  | decimal, decimal => true
  | utf8, utf8 => true
  | timestamp, timestamp => true
  | entity n, entity m => n == m
  | sequence t, sequence u => same t u
  | queryable t, queryable u => same t u
  | record ts, record us => sameMembers ts us
  | function ts t, function us u => sameList ts us && same t u
  | _, _ => false
termination_by structural x => x

def sameList : List DataType → List DataType → Bool
  | [], [] => true
  | t :: ts, u :: us => same t u && sameList ts us
  | _, _ => false
termination_by structural x => x

def sameMembers : List (String × DataType) → List (String × DataType) → Bool
  | [], [] => true
  | (n, t) :: ts, (m, u) :: us => n == m && same t u && sameMembers ts us
  | _, _ => false
termination_by structural x => x

end

mutual

theorem same_iff : ∀ t u : DataType, same t u = true ↔ t = u := by
  intro t u
  cases t with
  | sequence t => cases u <;> simp [same, same_iff t]
  | queryable t => cases u <;> simp [same, same_iff t]
  | record ts => cases u <;> simp [same, sameMembers_iff ts]
  | function ts t => cases u <;> simp [same, sameList_iff ts, same_iff t]
  | _ => cases u <;> simp [same]

theorem sameList_iff : ∀ ts us : List DataType, sameList ts us = true ↔ ts = us := by
  intro ts us
  cases ts with
  | nil => cases us <;> simp [sameList]
  | cons t ts => cases us <;> simp [sameList, same_iff t, sameList_iff ts]

theorem sameMembers_iff :
    ∀ ts us : List (String × DataType), sameMembers ts us = true ↔ ts = us := by
  intro ts us
  cases ts with
  | nil => cases us <;> simp [sameMembers]
  | cons m ts =>
    obtain ⟨n, t⟩ := m
    cases us with
    | nil => simp [sameMembers]
    | cons k us =>
      obtain ⟨m, u⟩ := k
      simp [sameMembers, same_iff t, sameMembers_iff ts]

end

instance : DecidableEq DataType := fun t u => decidable_of_iff _ (same_iff t u)

def tag : DataType → TypeTag
  | null => .null
  | boolean => .boolean
  | int32 => .int32
  | int64 => .int64
  | float64 => .float64
  | decimal => .decimal
  | utf8 => .utf8
  | timestamp => .timestamp
  | entity _ => .entity
  | sequence _ => .sequence
  | queryable _ => .queryable
  | record _ => .record
  | function _ _ => .function

def isNull : DataType → Bool
  | null => true
  | _ => false

def isQueryable : DataType → Bool
  | queryable _ => true
  | _ => false

def entityName? : DataType → Option String
  | entity name => some name
  | _ => none

/-- The row type of a sequence or a query. -/
def element? : DataType → Option DataType
  | sequence element | queryable element => some element
  | _ => none

def isSequenceLike (t : DataType) : Bool := t.element?.isSome

def result? : DataType → Option DataType
  | function _ result => some result
  | _ => none

/-- Defers a sequence; any other type stays. -/
def toQueryable : DataType → DataType
  | sequence element => queryable element
  | t => t

mutual

def text : DataType → String
  | null => "Null"
  | boolean => "Boolean"
  | int32 => "Int32"
  | int64 => "Int64"
  | float64 => "Float64"
  | decimal => "Decimal"
  | utf8 => "Utf8"
  | timestamp => "Timestamp"
  | entity name => name
  | sequence element => "Sequence<" ++ text element ++ ">"
  | queryable element => "Queryable<" ++ text element ++ ">"
  | record members => "\x7b" ++ ", ".intercalate (memberTexts members) ++ "\x7d"
  | function params result =>
    "Fn(" ++ ", ".intercalate (texts params) ++ ") -> " ++ text result
termination_by structural x => x

def texts : List DataType → List String
  | [] => []
  | t :: ts => text t :: texts ts
termination_by structural x => x

def memberTexts : List (String × DataType) → List String
  | [] => []
  | (name, t) :: ts => (name ++ ": " ++ text t) :: memberTexts ts
termination_by structural x => x

end

end DataType

end QueryLowering
