/-!
Columns of fixed width, counted in characters. Longer texts are not cut.
-/

namespace QueryLowering.Text

/-- Fills up with spaces on the right. -/
def alignLeft (width : Nat) (s : String) : String :=
  s ++ String.ofList (List.replicate (width - s.length) ' ')

/-- Fills up with spaces on the left. -/
def alignRight (width : Nat) (s : String) : String :=
  String.ofList (List.replicate (width - s.length) ' ') ++ s

end QueryLowering.Text
