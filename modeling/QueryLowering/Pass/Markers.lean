import QueryLowering.Expr.Text
import QueryLowering.Operator
import QueryLowering.State

/-!
Markers are taken out of the tree and recorded. A call with a marker stands for its first argument;
its other arguments and its receiver are not looked at.
-/

namespace QueryLowering.Pass.Markers

def missingSource (e : Expr) : Failure :=
  (Failure.unsupported "Marker call without a source").atNode e

def badTag (e : Expr) : Failure :=
  (Failure.unsupported "Query tag must be a string constant").atNode e

/-- The text of a tag argument. -/
def tag? : Option Expr → Option String
  | some (.const (.scalar (.utf8 s)) _) => some s
  | _ => none

/-- Records a marker with its further argument. -/
def record (marker : Marker) (arg : Option Expr) (m : Metadata) : Option Metadata :=
  match marker with
  | .tagWith => (tag? arg).map fun tag => { m with tags := m.tags ++ [tag] }
  | .asTracking => some { m with tracking := .tracking }
  | .asNoTracking => some { m with tracking := .noTracking }
  | .ignoreQueryFilters => some { m with ignoreQueryFilters := true }

/-- Records a marker, or fails at its node. -/
def note (marker : Marker) (arg : Option Expr) (node : Expr) : StateStep Metadata Unit := do
  match record marker arg (← get) with
  | some m => set m
  | none => throw (badTag node)

/-- Takes out all markers; the source of a marker is dealt with before the marker itself. -/
def strip (e : Expr) : StateStep Metadata Expr :=
  match e with
  | .call m receiver args type =>
    match Marker.of? m, args with
    | none, args => (Expr.call m receiver args type).traverse fun c _ => strip c
    | some _, [] => throw (missingSource (.call m receiver [] type))
    | some marker, source :: rest => do
      let source' ← strip source
      note marker rest.head? (.call m receiver (source :: rest) type)
      return source'
  | e => e.traverse fun c _ => strip c
termination_by e
decreasing_by
  · exact Expr.sizeOf_lt_of_mem_children ‹_›
  · exact Expr.sizeOf_lt_of_mem_children (by simp [Expr.children])
  · exact Expr.sizeOf_lt_of_mem_children ‹_›

end QueryLowering.Pass.Markers
