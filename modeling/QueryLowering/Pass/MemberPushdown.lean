import QueryLowering.Operator
import QueryLowering.Pass.BottomUp

/-!
Pushdown of members: a member of the one row that a subquery picks becomes the one value that the
subquery picks from the projected member.
-/

namespace QueryLowering.Pass.MemberPushdown

/-- Reads a member; of a constructed object, the member that it was constructed with. -/
def access (value : Expr) (name : String) (type : DataType) : Expr :=
  match value with
  | .object members => (members.lookup name).getD (.member value name type)
  | _ => .member value name type

/-- Source, parameters and body of a deferred projection. -/
def projection? : Expr → Option (Expr × List Param × Expr)
  | .call m _ [source, selector] _ =>
    if m.owner = Family.deferred.owner ∧ m.name = "Select" then
      selector.lambda?.map fun (params, body) => (source, params, body)
    else none
  | _ => none

/-- The rows that an element is picked from; a predicate becomes a filter. -/
def pickedFrom? : List Expr → Except Failure (Option Expr)
  | [source] => .ok (some source)
  | [source, predicate] => some <$> callOperator Family.deferred.owner "Where" [source, predicate]
  | _ => .ok none

/-- Arguments of the projection to a member; one that exists already is extended. -/
def projectionArgs? (source : Expr) (name : String) (type : DataType) : Option (List Expr) :=
  match projection? source with
  | some (inner, params, body) => some [inner, .quote (.lambda params (access body name type))]
  | none =>
    source.type.element?.map fun element =>
      [source, .quote (.lambda [⟨"x", element⟩] (access (.param ⟨"x", element⟩) name type))]

def rule : Rule
  | .member (.call m _ args _) name type =>
    if m.owner = Family.deferred.owner ∧ m.name ∈ Operator.elementPicking then do
      match ← pickedFrom? args with
      | none => return none
      | some source =>
        match projectionArgs? source name type with
        | none => return none
        | some projected => do
          let projected ← callOperator Family.deferred.owner "Select" projected
          return some (← callOperator Family.deferred.owner m.name [projected])
    else .ok none
  | _ => .ok none

def run (e : Expr) : Except Failure Expr := bottomUp rule e

end QueryLowering.Pass.MemberPushdown
