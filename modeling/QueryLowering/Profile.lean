import QueryLowering.Text.Column

/-!
The report of how long each pass took.
-/

namespace QueryLowering

/-- Durations in nanoseconds, by pass in order. -/
structure Profile where
  total : Nat
  timings : List (String × Nat)
deriving DecidableEq, Repr

/-- One line of the report. -/
def Profile.line (label amount : String) : String :=
  Text.alignLeft 30 label ++ " " ++ Text.alignRight 14 amount ++ "\n"

/-- Whole microseconds. -/
def Profile.micros (nanos : Nat) : String := toString (nanos / 1000)

/-- A heading, one line for each pass, and the total. -/
def Profile.text (p : Profile) : String :=
  line "Pass" "Elapsed (micro)" ++
    String.join (p.timings.map fun t => line t.1 (micros t.2)) ++
    line "total" (micros p.total)

end QueryLowering
