import QueryLowering.Expr.Subst
import QueryLowering.Operator
import QueryLowering.Pass.BottomUp

/-!
Flattening of group joins: grouping the rows of a join and unpacking the groups again is the join
itself, or the left join if a default row stands for an empty group.
-/

namespace QueryLowering.Pass.GroupJoin

/-- A group join whose result pairs the outer row with the group of inner rows. -/
structure Parts where
  args : List Expr
  outerParam : Param
  outerMember : String
  groupMember : String
deriving DecidableEq

/-- The names of the members that hold the outer row and the group. -/
def memberNames? (outer group : Param) : List (String × Expr) → Option (String × String)
  | [(a, .param p), (b, .param q)] =>
    if p = outer then
      if q = outer then none else if q = group then some (a, b) else none
    else if p = group ∧ q = outer then some (b, a)
    else none
  | _ => none

def parts? : Expr → Option Parts
  | .call m _ [outer, inner, outerKey, innerKey, selector] _ =>
    if m.name = "GroupJoin" then
      match selector.lambda? with
      | some ([outerParam, groupParam], .object members) =>
        (memberNames? outerParam groupParam members).map fun (outerMember, groupMember) =>
          ⟨[outer, inner, outerKey, innerKey], outerParam, outerMember, groupMember⟩
      | _ => none
    else none
  | _ => none

/-- Follows a body down to the group: true if a default row stands for an empty group. The flag
tells whether a default has been met already. -/
def reachesGroup? (pair : Param) (groupMember : String) (withDefault : Bool) (e : Expr) :
    Option Bool :=
  match e with
  | .call m _ [source] _ =>
    if (Family.ofOwner? m.owner).isSome then
      if m.name = "DefaultIfEmpty" ∧ withDefault = false then
        reachesGroup? pair groupMember true source
      else if m.name = "AsQueryable" then reachesGroup? pair groupMember withDefault source
      else none
    else none
  | .member (.param p) name _ =>
    if name = groupMember ∧ p = pair then some withDefault else none
  | _ => none
termination_by e

/-- Does the selector unpack the group, and with a default row? -/
def unpacksGroup? (selector : Expr) (groupMember : String) : Option Bool :=
  match selector.lambda? with
  | some ([pair], body) => reachesGroup? pair groupMember false body
  | _ => none

/-- The selector of the flat join: it takes the outer row in place of the pair. None if the pair is
used in any other way. -/
def joinSelector? (parts : Parts) : List Expr → Option Expr
  | [] =>
    match parts.args with
    | [_, inner, _, _] =>
      inner.type.element?.map fun element =>
        .lambda [parts.outerParam, ⟨"i", element⟩] (.param ⟨"i", element⟩)
    | _ => none
  | [selector] =>
    match selector.lambda? with
    | some ([pair, innerParam], body) =>
      let body := Expr.substMember pair parts.outerMember (.param parts.outerParam) body
      if body.references pair then none else some (.lambda [parts.outerParam, innerParam] body)
    | _ => none
  | _ => none

/-- Quotes the selector for a deferred join. -/
def selectorFor (family : Family) (selector : Expr) : Expr :=
  match family with
  | .inMemory => selector
  | .deferred => .quote selector

/-- Name and arguments of the flat join. There is no left join in memory. -/
def flatJoin? (family : Family) (source collection : Expr) (rest : List Expr) :
    Option (String × List Expr) := do
  let parts ← parts? source
  let leftOuter ← unpacksGroup? collection parts.groupMember
  if leftOuter ∧ family = .inMemory then none
  else
    let selector ← joinSelector? parts rest
    return (if leftOuter then "LeftJoin" else "Join", parts.args ++ [selectorFor family selector])

def rule : Rule
  | .call m _ (source :: collection :: rest) _ =>
    if m.name = "SelectMany" then
      match (Family.ofOwner? m.owner).bind fun f => flatJoin? f source collection rest with
      | some (name, args) => do return some (← callOperator m.owner name args)
      | none => .ok none
    else .ok none
  | _ => .ok none

def run (e : Expr) : Except Failure Expr := bottomUp rule e

end QueryLowering.Pass.GroupJoin
