import QueryLowering.Document

/-!
Parsing documents from JSON text: characters are cut into tokens, and a stack of unfinished lists
and objects takes in one token after the other.
-/

namespace QueryLowering.Document

inductive Token where
  | openList
  | closeList
  | openObject
  | closeObject
  | comma
  | colon
  | null
  | bool (value : Bool)
  | number (spelling : String)
  | string (value : Option String)
deriving DecidableEq, Repr

namespace Token

def isSpace (c : Char) : Bool := c == ' ' || c == '\n' || c == '\t' || c == '\r'

def hexDigit? (c : Char) : Option Nat :=
  if '0' ≤ c ∧ c ≤ '9' then some (c.toNat - '0'.toNat)
  else if 'a' ≤ c ∧ c ≤ 'f' then some (c.toNat - 'a'.toNat + 10)
  else if 'A' ≤ c ∧ c ≤ 'F' then some (c.toNat - 'A'.toNat + 10)
  else none

def escape? : Char → Option Nat
  | '"' => some 0x22
  | '\\' => some 0x5C
  | '/' => some 0x2F
  | 'b' => some 0x8
  | 'f' => some 0xC
  | 'n' => some 0xA
  | 'r' => some 0xD
  | 't' => some 0x9
  | _ => none

/-- Code units up to the closing quote, and the characters behind it. -/
def units? : List Char → Option (List Nat × List Char)
  | [] => none
  | '"' :: cs => some ([], cs)
  | '\\' :: 'u' :: a :: b :: c :: d :: cs => do
    let unit := (← hexDigit? a) * 4096 + (← hexDigit? b) * 256 + (← hexDigit? c) * 16
      + (← hexDigit? d)
    let (units, rest) ← units? cs
    return (unit :: units, rest)
  | '\\' :: c :: cs => do
    let unit ← escape? c
    let (units, rest) ← units? cs
    return (unit :: units, rest)
  | c :: cs =>
    if c < ' ' then none
    else do
      let (units, rest) ← units? cs
      return (c.toNat :: units, rest)

/-- Joins the two halves of a character; a half on its own is no character. -/
def joinHalves? : List Nat → Option (List Char)
  | [] => some []
  | u :: us =>
    if 0xD800 ≤ u ∧ u < 0xDC00 then
      match us with
      | v :: us =>
        if 0xDC00 ≤ v ∧ v < 0xE000 then
          (Char.ofNat (0x10000 + (u - 0xD800) * 1024 + (v - 0xDC00)) :: ·) <$> joinHalves? us
        else none
      | [] => none
    else if 0xDC00 ≤ u ∧ u < 0xE000 then none
    else (Char.ofNat u :: ·) <$> joinHalves? us

/-- At least one digit, and the characters behind the digits. -/
def digits? (cs : List Char) : Option (List Char × List Char) :=
  match cs.takeWhile Char.isDigit with
  | [] => none
  | ds => some (ds, cs.dropWhile Char.isDigit)

/-- The whole part of a number: no zero in front of other digits. -/
def whole? : List Char → Option (List Char × List Char)
  | '0' :: cs => some (['0'], cs)
  | cs => digits? cs

def fraction? : List Char → Option (List Char × List Char)
  | '.' :: cs => do
    let (ds, rest) ← digits? cs
    return ('.' :: ds, rest)
  | cs => some ([], cs)

def exponent? : List Char → Option (List Char × List Char)
  | e :: cs =>
    if e = 'e' ∨ e = 'E' then do
      let (sign, cs) := match cs with
        | '+' :: cs => (['+'], cs)
        | '-' :: cs => (['-'], cs)
        | cs => ([], cs)
      let (ds, rest) ← digits? cs
      return (e :: sign ++ ds, rest)
    else some ([], e :: cs)
  | [] => some ([], [])

def number? (cs : List Char) : Option (String × List Char) := do
  let (sign, cs) := match cs with
    | '-' :: cs => (['-'], cs)
    | cs => ([], cs)
  let (whole, cs) ← whole? cs
  let (fraction, cs) ← fraction? cs
  let (exponent, cs) ← exponent? cs
  return (String.ofList (sign ++ whole ++ fraction ++ exponent), cs)

/-- The token at the start of a text without leading space. -/
def next? : List Char → Option (Token × List Char)
  | '[' :: cs => some (openList, cs)
  | ']' :: cs => some (closeList, cs)
  | '\x7b' :: cs => some (openObject, cs)
  | '\x7d' :: cs => some (closeObject, cs)
  | ',' :: cs => some (comma, cs)
  | ':' :: cs => some (colon, cs)
  | 'n' :: 'u' :: 'l' :: 'l' :: cs => some (null, cs)
  | 't' :: 'r' :: 'u' :: 'e' :: cs => some (bool true, cs)
  | 'f' :: 'a' :: 'l' :: 's' :: 'e' :: cs => some (bool false, cs)
  | '"' :: cs => do
    let (units, rest) ← units? cs
    return (string ((joinHalves? units).map String.ofList), rest)
  | cs => do
    let (spelling, rest) ← number? cs
    return (number spelling, rest)

/-- Cuts a text into at most `fuel` tokens. -/
def scan? : Nat → List Char → Option (List Token)
  | 0, _ => some []
  | fuel + 1, cs =>
    match cs.dropWhile isSpace with
    | [] => some []
    | cs => do
      let (t, rest) ← next? cs
      return t :: (← scan? fuel rest)

/-- All tokens of a text; each takes at least one character. -/
def all? (cs : List Char) : Option (List Token) := scan? cs.length cs

end Token

/-- A list or object whose end has not been met; finished parts stand in reverse. -/
inductive Frame where
  | list (items : List Document)
  | object (members : List (Option String × Document))
  | entry (members : List (Option String × Document)) (key : Option String)

/-- What the next token has to be. -/
inductive Expected where
  | value
  | valueOrClose
  | key
  | keyOrClose
  | colon
  | separator
  | nothing
deriving DecidableEq

structure Parser where
  frames : List Frame
  expected : Expected
  result : Document

namespace Parser

def start : Parser := ⟨[], .value, .null⟩

/-- Takes in a finished value. -/
def finish (d : Document) : List Frame → Option Parser
  | [] => some ⟨[], .nothing, d⟩
  | .list items :: fs => some ⟨.list (d :: items) :: fs, .separator, .null⟩
  | .entry members key :: fs => some ⟨.object ((key, d) :: members) :: fs, .separator, .null⟩
  | .object _ :: _ => none

/-- Takes in the start of a value. -/
def value (fs : List Frame) : Token → Option Parser
  | .openList => some ⟨.list [] :: fs, .valueOrClose, .null⟩
  | .openObject => some ⟨.object [] :: fs, .keyOrClose, .null⟩
  | .null => finish .null fs
  | .bool b => finish (.bool b) fs
  | .number s => finish (.number s) fs
  | .string s => finish (.string s) fs
  | _ => none

def step (p : Parser) (t : Token) : Option Parser :=
  match p.expected, p.frames, t with
  | .valueOrClose, .list _ :: fs, .closeList => finish (.list []) fs
  | .value, fs, t | .valueOrClose, fs, t => value fs t
  | .keyOrClose, .object _ :: fs, .closeObject => finish (.object []) fs
  | .key, .object members :: fs, .string key | .keyOrClose, .object members :: fs, .string key =>
    some ⟨.entry members key :: fs, .colon, .null⟩
  | .colon, fs, .colon => some ⟨fs, .value, .null⟩
  | .separator, .list items :: fs, .comma => some ⟨.list items :: fs, .value, .null⟩
  | .separator, .list items :: fs, .closeList => finish (.list items.reverse) fs
  | .separator, .object members :: fs, .comma => some ⟨.object members :: fs, .key, .null⟩
  | .separator, .object members :: fs, .closeObject => finish (.object members.reverse) fs
  | _, _, _ => none

end Parser

/-- Parses a whole text as one document. -/
def parse? (text : String) : Option Document := do
  let tokens ← Token.all? text.toList
  let p ← tokens.foldlM Parser.step Parser.start
  if p.expected = .nothing then some p.result else none

end QueryLowering.Document
