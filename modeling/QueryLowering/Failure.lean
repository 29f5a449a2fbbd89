/-!
Failures of query compilation. A failure has a kind, a message, named fields in the order in which
they were attached, and possibly the text of an underlying cause.
-/

namespace QueryLowering

/-- What went wrong, as far as a caller can act on it. -/
inductive Failure.Kind where
  | unresolvedInvocation
  | incompatibleEntities
  | unresolvedOverload
  | tableFunctionAsScalar
  | unsupportedShape
  | internal
deriving DecidableEq, Repr

/-- The kind in words, as a diagnostic shows it. -/
def Failure.Kind.text : Failure.Kind → String
  | unresolvedInvocation => "unresolved invocation target"
  | incompatibleEntities => "incompatible entity comparison"
  | unresolvedOverload => "unresolved function overload"
  | tableFunctionAsScalar => "table-valued function in scalar position"
  | unsupportedShape => "unsupported expression shape"
  | internal => "internal"

/-- A failure with its message and named fields; later fields stand behind earlier ones. -/
structure Failure where
  kind : Failure.Kind
  message : String
  fields : List (String × String) := []
  cause : Option String := none
deriving DecidableEq, Repr

namespace Failure

/-- The field that names the pass in which a failure arose. -/
def passField : String := "pass"

/-- The field that holds the text of the offending node. -/
def nodeField : String := "node"

def internalError (message : String) : Failure := ⟨.internal, message, [], none⟩

def unsupported (message : String) : Failure := ⟨.unsupportedShape, message, [], none⟩

/-- Announces a feature that does not exist yet. -/
def notImplemented (message : String) : Failure :=
  internalError ("Not yet implemented: " ++ message)

/-- The first value attached under a name. -/
def field? (f : Failure) (name : String) : Option String := f.fields.lookup name

def withField (f : Failure) (name value : String) : Failure :=
  { f with fields := f.fields ++ [(name, value)] }

/-- Attaches a field unless one of that name is there already. -/
def withFieldIfAbsent (f : Failure) (name value : String) : Failure :=
  if (f.field? name).isSome then f else f.withField name value

/-- Replaces the underlying cause. -/
def withCause (f : Failure) (cause : String) : Failure := { f with cause := some cause }

/-- Puts a message in front, keeping kind, fields and cause. -/
def withContext (f : Failure) (context : String) : Failure :=
  { f with message := context ++ ": " ++ f.message }

def pass? (f : Failure) : Option String := f.field? passField

def node? (f : Failure) : Option String := f.field? nodeField

def fieldsText (fields : List (String × String)) : String :=
  match fields with
  | [] => ""
  | fs => " (" ++ ", ".intercalate (fs.map fun f => f.1 ++ ": " ++ f.2) ++ ")"

/-- Message, fields in brackets, and the cause on a line of its own. -/
def text (f : Failure) : String :=
  f.message ++ fieldsText f.fields ++
    match f.cause with
    | some cause => "\nError source: " ++ cause
    | none => ""

@[simp] theorem kind_withField (f : Failure) (n v : String) : (f.withField n v).kind = f.kind := rfl

@[simp] theorem fields_withField (f : Failure) (n v : String) :
    (f.withField n v).fields = f.fields ++ [(n, v)] := rfl

@[simp] theorem kind_withFieldIfAbsent (f : Failure) (n v : String) :
    (f.withFieldIfAbsent n v).kind = f.kind := by
  unfold withFieldIfAbsent; split <;> rfl

end Failure

/-- The part of a failure that is shown to a user. -/
structure Diagnostic where
  kind : Failure.Kind
  pass : Option String
  node : Option String
  message : String
deriving DecidableEq, Repr

def Failure.diagnostic (f : Failure) : Diagnostic := ⟨f.kind, f.pass?, f.node?, f.message⟩

/-- Kind and message, then the pass in square brackets and the node in quotes, if known. -/
def Diagnostic.text (d : Diagnostic) : String :=
  d.kind.text ++ ": " ++ d.message ++ (d.pass.elim "" fun p => " [" ++ p ++ "]") ++
    (d.node.elim "" fun n => " at '" ++ n ++ "'")

/-- A value that has to be there. -/
def required {α : Type} (value : Option α) (message : String) : Except Failure α :=
  match value with
  | some a => .ok a
  | none => .error (.internalError message)

end QueryLowering
