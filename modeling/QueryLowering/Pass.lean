import QueryLowering.Pass.DatabaseFunction
import QueryLowering.Pass.GroupJoin
import QueryLowering.Pass.Inlining
import QueryLowering.Pass.KeyComparison
import QueryLowering.Pass.Markers
import QueryLowering.Pass.MemberPushdown
import QueryLowering.Pass.Membership
import QueryLowering.Pass.Navigation
import QueryLowering.Pass.NullGuard
import QueryLowering.Pass.Promotion

/-!
The passes that lower a query, and the order in which they run.
-/

namespace QueryLowering

inductive Pass where
  | promotion
  | markers
  | inlining
  | membership
  | groupJoin
  | nullGuard
  | keyComparison
  | memberPushdown
  | navigation
  | databaseFunction
deriving DecidableEq, Repr

namespace Pass

/-- The name under which failures and profiles report a pass. -/
def name : Pass → String
  | promotion => "enumerable_to_queryable"
  | markers => "metadata_extraction"
  | inlining => "invocation_removal"
  | membership => "all_any_to_contains"
  | groupJoin => "group_join_flattening"
  | nullGuard => "null_check_removal"
  | keyComparison => "entity_equality"
  | memberPushdown => "subquery_member_pushdown"
  | navigation => "navigation_expansion"
  | databaseFunction => "function_preprocessing"

/-- All passes, in the order in which they run. -/
def all : List Pass :=
  [promotion, markers, inlining, membership, groupJoin, nullGuard, keyComparison, memberPushdown,
   navigation, databaseFunction]

def ofName? (name : String) : Option Pass := all.find? fun p => p.name == name

/-- Runs one pass over an expression. -/
def run (ctx : Context) : Pass → Expr → StateStep State Expr
  | promotion, e => .ofExcept (Promotion.run e)
  | markers, e => (Markers.strip e).zoom State.metadata fun m s => { s with metadata := m }
  | inlining, e => .ofExcept (Inlining.run e)
  | membership, e => .ofExcept (Membership.run e)
  | groupJoin, e => .ofExcept (GroupJoin.run e)
  | nullGuard, e => return NullGuard.run ctx.model e
  | keyComparison, e => .ofExcept (KeyComparison.run ctx.model e)
  | memberPushdown, e => .ofExcept (MemberPushdown.run e)
  | navigation, e => Navigation.run ctx.model e
  | databaseFunction, e => DatabaseFunction.run ctx.catalog e

/-- Runs passes one after the other over one state. Gives the result of each, the failure that ended
the series if there was one, and the state that was left. -/
def series (ctx : Context) : List Pass → Expr → State → List Expr × Option Failure × State
  | [], _, s => ([], none, s)
  | p :: ps, e, s =>
    match (p.run ctx e).run.run s with
    | (.ok e', s') =>
      let (rest, failure, final) := series ctx ps e' s'
      (e' :: rest, failure, final)
    | (.error f, s') => ([], some f, s')

end Pass

end QueryLowering
