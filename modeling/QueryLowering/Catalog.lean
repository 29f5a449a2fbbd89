import QueryLowering.Function

/-!
Function catalogs: function sets, found by the owner and name of their method.
-/

namespace QueryLowering

/-- Function sets in order of registration; no two have a method of the same owner and name. -/
structure Catalog where
  sets : List FunctionSet
deriving DecidableEq, Repr

namespace Catalog

def empty : Catalog := ⟨[]⟩

def size (c : Catalog) : Nat := c.sets.length

def isEmpty (c : Catalog) : Bool := c.sets.isEmpty

/-- The functions behind a method, whatever its type arguments. -/
def find? (c : Catalog) (m : Method) : Option FunctionSet :=
  c.sets.find? fun s => s.method.is m.owner m.name

/-- Adds a set, which must have an overload and be the first for its method. -/
def register (c : Catalog) (s : FunctionSet) : Except Failure Catalog :=
  if s.overloads.isEmpty then
    .error (.internalError ("Function set for " ++ s.method.text ++ " has no overloads"))
  else if (c.find? s.method).isSome then
    .error (.internalError ("Duplicate function for " ++ s.method.text))
  else .ok ⟨c.sets ++ [s]⟩

end Catalog

end QueryLowering
