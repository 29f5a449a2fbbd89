import QueryLowering.Expr.Equality
import QueryLowering.Model
import QueryLowering.Operator

/-!
Removal of null guards. A conditional that only guards a value against a null that cannot occur
becomes the value. Rows cannot be null, except those of the right side of a left join.
-/

namespace QueryLowering.Pass.NullGuard

/-- The parameters in scope, innermost first, with whether their rows may be missing. -/
abbrev Scope := List (Param × Bool)

/-- Binds the parameters of a lambda; the one at position `optional` ranges over rows that may be
missing. Of two parameters of one name the later hides the earlier. -/
def Scope.bind (Γ : Scope) (params : List Param) (optional : Option Nat) : Scope :=
  (params.zipIdx.map fun p => (p.1, decide (optional = some p.2))).reverse ++ Γ

/-- May the row of a parameter be missing? Parameters are looked up by name. -/
def Scope.isOptional (Γ : Scope) (p : Param) : Bool :=
  (Γ.find? fun b => b.1.name == p.name).any (·.2)

/-- Is the member of a row of an entity type never null? -/
def memberNonNull (entity : Entity) (name : String) : Bool :=
  match entity.property? name, entity.navigation? name with
  | some p, _ => !p.nullable
  | none, some n => n.cardinality == .many || n.required
  | none, none => false

/-- Can an expression be seen not to be null? -/
def nonNull (model : Model) (Γ : Scope) : Expr → Bool
  | .const (.scalar v) _ => !v.isNull
  | .const (.list _) _ => true
  | .const (.entitySet _) _ => true
  | .object _ => true
  | .param p => p.type.entityName?.isSome && !Γ.isOptional p
  | .member target name _ =>
    (match target.type.entityName?.bind model.entity? with
      | some entity => memberNonNull entity name
      | none => false) && nonNull model Γ target
  | _ => false

/-- What a test compares with null, and whether it holds for null. -/
def nullTest? : Expr → Option (Expr × Bool)
  | .binary .eq left right =>
    if right.isNullConstant then some (left, true)
    else if left.isNullConstant then some (right, true)
    else none
  | .binary .notEq left right =>
    if right.isNullConstant then some (left, false)
    else if left.isNullConstant then some (right, false)
    else none
  | .unary .isNull e => some (e, true)
  | .unary .isNotNull e => some (e, false)
  | _ => none

/-- What a conditional guards: the expression tested for null and the value it gives otherwise. -/
def guarded? (test whenTrue whenFalse : Expr) : Option (Expr × Expr) :=
  match nullTest? test with
  | some (checked, true) => if whenTrue.isNullConstant then some (checked, whenFalse) else none
  | some (checked, false) => if whenFalse.isNullConstant then some (checked, whenTrue) else none
  | none => none

/-- Drops a guard against a null that cannot occur. -/
def unguard (model : Model) (Γ : Scope) (test whenTrue whenFalse : Expr) (type : DataType) : Expr :=
  match guarded? test whenTrue whenFalse with
  | some (checked, value) =>
    if nonNull model Γ checked then value else .cond test whenTrue whenFalse type
  | none => .cond test whenTrue whenFalse type

/-- Does a collection selector supply a default row for an empty collection? -/
def endsInDefault (e : Expr) : Bool :=
  match e with
  | .quote inner => endsInDefault inner
  | .lambda _ body => endsInDefault body
  | .call m _ [source] _ => if m.name = "AsQueryable" then endsInDefault source
    else m.name == "DefaultIfEmpty"
  | .call m _ _ _ => m.name == "DefaultIfEmpty"
  | _ => false
termination_by e

/-- The argument of a call whose lambda takes a row that may be missing; that row is always the
second parameter. -/
def optionalRowArg? (m : Method) (args : List Expr) : Option Nat :=
  if (Family.ofOwner? m.owner).isSome then
    if m.name = "LeftJoin" ∧ args.length = 5 then some 4
    else if m.name = "SelectMany" then
      match args with
      | [_, collection, _] => if endsInDefault collection then some 2 else none
      | _ => none
    else none
  else none

/-- The child of a call whose lambda takes a row that may be missing. -/
def optionalRowChild? : Expr → Option Nat
  | .call m receiver args _ =>
    (optionalRowArg? m args).map fun i => receiver.toList.length + i
  | _ => none

/-- Removes guards. If a position is given and the expression is a lambda, quoted or not, the
parameter at that position ranges over rows that may be missing. -/
def remove (model : Model) (Γ : Scope) (optional : Option Nat) (e : Expr) : Expr :=
  match e with
  | .quote inner => .quote (remove model Γ optional inner)
  | .lambda params body => .lambda params (remove model (Γ.bind params optional) none body)
  | .cond test whenTrue whenFalse type =>
    unguard model Γ (remove model Γ none test) (remove model Γ none whenTrue)
      (remove model Γ none whenFalse) type
  | e =>
    e.mapChildrenIdx fun i c _ =>
      remove model Γ (if optionalRowChild? e = some i then some 1 else none) c
termination_by e
decreasing_by
  · exact Expr.sizeOf_lt_of_mem_children (by simp [Expr.children])
  · exact Expr.sizeOf_lt_of_mem_children (by simp [Expr.children])
  · exact Expr.sizeOf_lt_of_mem_children (by simp [Expr.children])
  · exact Expr.sizeOf_lt_of_mem_children (by simp [Expr.children])
  · exact Expr.sizeOf_lt_of_mem_children (by simp [Expr.children])
  · exact Expr.sizeOf_lt_of_mem_children ‹_›

def run (model : Model) (e : Expr) : Expr := remove model [] none e

end QueryLowering.Pass.NullGuard
