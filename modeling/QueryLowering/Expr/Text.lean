import QueryLowering.Expr.Basic

/-!
The text form of expressions, for messages and for display. It is not meant to be read back.
-/

namespace QueryLowering

def UnaryOp.wrap : UnaryOp → String → String
  | not, e => "NOT " ++ e
  | negate, e => "-" ++ e
  | isNull, e => e ++ " IS NULL"
  | isNotNull, e => e ++ " IS NOT NULL"

def BinaryOp.text : BinaryOp → String
  | eq => "=="
  | notEq => "!="
  | lt => "<"
  | ltEq => "<="
  | gt => ">"
  | gtEq => ">="
  | and => "AND"
  | or => "OR"
  | add => "+"
  | sub => "-"
  | mul => "*"
  | div => "/"

def JoinKind.text : JoinKind → String
  | inner => "JOIN"
  | leftOuter => "LEFT JOIN"

namespace Expr

/-- A list in round brackets. -/
def bracketed (items : List String) : String := "(" ++ ", ".intercalate items ++ ")"

/-- A single parameter stands without brackets. -/
def paramsText : List Param → String
  | [p] => p.name
  | ps => bracketed (ps.map Param.name)

mutual

def text : Expr → String
  | const v _ => v.text
  | param p => p.name
  | call m none args _ => m.text ++ bracketed (texts args)
  | call m (some receiver) args _ => text receiver ++ "." ++ m.name ++ bracketed (texts args)
  | member target name _ => text target ++ "." ++ name
  | lambda params body => paramsText params ++ " => " ++ text body
  | quote inner => "quote(" ++ text inner ++ ")"
  | invoke callee args _ => "invoke" ++ bracketed (text callee :: texts args)
  | unary op operand => op.wrap (text operand)
  | binary op left right => "(" ++ text left ++ " " ++ op.text ++ " " ++ text right ++ ")"
  | cond test whenTrue whenFalse _ =>
    "(" ++ text test ++ " ? " ++ text whenTrue ++ " : " ++ text whenFalse ++ ")"
  | object members => "new \x7b " ++ ", ".intercalate (memberTexts members) ++ " \x7d"
  | baseTable row schema table _ =>
    (match schema with
      | some schema => schema ++ "." ++ table
      | none => table) ++ " AS " ++ row.text
  | derivedTable row subquery => "(" ++ text subquery ++ ") AS " ++ row.text
  | functionCall f args => f.qualifiedName ++ bracketed (texts args)
  | tableFunction row f args => f.qualifiedName ++ bracketed (texts args) ++ " AS " ++ row.text
  | navigationJoin label outer inner outerKey innerKey =>
    text outer ++ " " ++ label.kind.text ++ " " ++ text inner ++ " ON " ++ text outerKey ++ " = " ++
      text innerKey
  | pivotTable row source key aggregate none =>
    "PIVOT(" ++ text source ++ " ON " ++ text key ++ " AGG " ++ text aggregate ++ ") AS " ++ row.text
  | pivotTable row source key aggregate (some selector) =>
    "PIVOT(" ++ text source ++ " ON " ++ text key ++ " AGG " ++ text aggregate ++ " SELECT " ++
      text selector ++ ") AS " ++ row.text
  | sourceRef row _ => row.text
termination_by structural x => x

def texts : List Expr → List String
  | [] => []
  | e :: es => text e :: texts es
termination_by structural x => x

def memberTexts : List (String × Expr) → List String
  | [] => []
  | (name, e) :: es => (name ++ " = " ++ text e) :: memberTexts es
termination_by structural x => x

end

end Expr

/-- Attaches the text of the offending node. -/
def Failure.atNode (f : Failure) (e : Expr) : Failure := f.withField Failure.nodeField e.text

end QueryLowering
