import QueryLowering.Failure
import QueryLowering.Text.Blank
import QueryLowering.Text.Unsigned

/-!
Settings of the compiler, which are read from and shown as text.
-/

namespace QueryLowering

structure Settings where
  cacheQueries : Bool := true
  cacheCapacity : Nat := 256
  parameterizeLiterals : Bool := true
  verifyResult : Bool := true
  profilePasses : Bool := false
deriving DecidableEq, Repr

/-- The settings that can be addressed by name, in order of their names. -/
inductive Setting where
  | cacheQueries
  | parameterizeLiterals
  | profilePasses
  | cacheCapacity
  | verifyResult
deriving DecidableEq, Repr

namespace Setting

def all : List Setting :=
  [cacheQueries, parameterizeLiterals, profilePasses, cacheCapacity, verifyResult]

def name : Setting → String
  | cacheQueries => "enable_query_cache"
  | cacheCapacity => "query_cache_capacity"
  | parameterizeLiterals => "parameterize_literals"
  | verifyResult => "verify_normalized_tree"
  | profilePasses => "profile_passes"

def description : Setting → String
  | cacheQueries => "Reuse compiled queries with the same shape"
  | cacheCapacity => "Max number of query shapes kept in the cache"
  | parameterizeLiterals => "Replace literals with query parameters before caching"
  | verifyResult => "Check translated trees for constructs that should have been rewritten"
  | profilePasses => "Record time spent in each rewrite pass"

/-- The setting of a name, which is not trimmed. -/
def ofName (name : String) : Except Failure Setting :=
  match all.find? fun s => s.name == name with
  | some s => .ok s
  | none => .error (.internalError ("Missing setting for '" ++ name ++ "'"))

end Setting

namespace Settings

def minCapacity : Nat := 1

def maxCapacity : Nat := 65536

def lowerCase (s : String) : String := String.ofList (s.toList.map Char.toLower)

def boolText (b : Bool) : String := if b then "true" else "false"

/-- Reads a flag, ignoring case and blanks around it. -/
def readBool (setting : Setting) (value : String) : Except Failure Bool :=
  let word := lowerCase (Text.trim value)
  if word ∈ ["true", "on", "1"] then .ok true
  else if word ∈ ["false", "off", "0"] then .ok false
  else .error (.internalError
    ("Invalid value '" ++ value ++ "' for setting '" ++ setting.name ++ "', expected a boolean"))

/-- Reads a capacity, ignoring blanks around it. -/
def readCapacity (value : String) : Except Failure Nat :=
  match Text.Unsigned.readWord (Text.trim value) with
  | .error fault =>
    .error ((Failure.internalError
      ("Invalid value '" ++ value ++ "' for setting '" ++ Setting.cacheCapacity.name ++ "'")).withCause
        fault.text)
  | .ok n =>
    if n < minCapacity then
      .error (.internalError
        ("Query cache capacity cannot be less than " ++ toString minCapacity))
    else if maxCapacity < n then
      .error (.internalError
        ("Query cache capacity cannot be greater than " ++ toString maxCapacity))
    else .ok n

/-- The text of a setting. -/
def get (s : Settings) : Setting → String
  | .cacheQueries => boolText s.cacheQueries
  | .cacheCapacity => toString s.cacheCapacity
  | .parameterizeLiterals => boolText s.parameterizeLiterals
  | .verifyResult => boolText s.verifyResult
  | .profilePasses => boolText s.profilePasses

/-- Reads a setting from text. -/
def set (s : Settings) (setting : Setting) (value : String) : Except Failure Settings :=
  match setting with
  | .cacheQueries => do return { s with cacheQueries := ← readBool setting value }
  | .cacheCapacity => do return { s with cacheCapacity := ← readCapacity value }
  | .parameterizeLiterals => do return { s with parameterizeLiterals := ← readBool setting value }
  | .verifyResult => do return { s with verifyResult := ← readBool setting value }
  | .profilePasses => do return { s with profilePasses := ← readBool setting value }

def getByName (s : Settings) (name : String) : Except Failure String := do
  return s.get (← Setting.ofName name)

def setByName (s : Settings) (name value : String) : Except Failure Settings := do
  s.set (← Setting.ofName name) value

/-- Sets a setting to the text of its default. -/
def resetByName (s : Settings) (name : String) : Except Failure Settings := do
  let setting ← Setting.ofName name
  s.set setting (Settings.get {} setting)

/-- All settings at their defaults. -/
def defaults : Settings := {}

/-- Applies changes given by name, one after the other. -/
def ofChanges (changes : List (String × String)) : Except Failure Settings :=
  changes.foldlM (fun s c => s.setByName c.1 c.2) defaults

end Settings

end QueryLowering
