import QueryLowering.Cache
import QueryLowering.Literals
import QueryLowering.Pipeline
import QueryLowering.Settings
import QueryLowering.Verification

/-!
The compiler: lowers queries under given settings and keeps what it lowered in a cache, by shape.
-/

namespace QueryLowering

/-- What is kept of a lowered query: the tree, how it is to be run, and the passes that were timed. -/
structure Entry where
  expr : Expr
  metadata : Metadata
  profile : Option (List String)
deriving DecidableEq

/-- An answer of the compiler. -/
structure Compiled where
  entry : Entry
  parameters : List QueryParameter
  cached : Bool

structure Compiler where
  context : Context
  settings : Settings
  cache : Cache Expr Entry

namespace Compiler

def new (context : Context) (settings : Settings) : Compiler :=
  ⟨context, settings, .ofCapacity settings.cacheCapacity⟩

/-- Lowers a shape and verifies the result, as the settings say. -/
def lowerShape (context : Context) (settings : Settings) (shape : Expr) : Except Failure Entry := do
  let lowered ← lower context shape
  if settings.verifyResult then Verification.verify context.model lowered.expr
  return ⟨lowered.expr, lowered.metadata,
    if settings.profilePasses then some (Pass.all.map Pass.name) else none⟩

/-- The shape of a query and its parameters, as the settings say. -/
def shapeOf (settings : Settings) (e : Expr) : Expr × List QueryParameter :=
  if settings.parameterizeLiterals then Literals.extract e else (e, [])

/-- Compiles a query. A shape that is in the cache is not lowered again; one that cannot be lowered
is not kept. -/
def compile (c : Compiler) (e : Expr) : Except Failure Compiled × Compiler :=
  let (shape, parameters) := shapeOf c.settings e
  if c.settings.cacheQueries then
    match c.cache.get shape with
    | (some entry, cache) => (.ok ⟨entry, parameters, true⟩, { c with cache := cache })
    | (none, cache) =>
      match lowerShape c.context c.settings shape with
      | .ok entry =>
        (.ok ⟨entry, parameters, false⟩, { c with cache := cache.insert shape entry })
      | .error f => (.error f, { c with cache := cache })
  else
    ((lowerShape c.context c.settings shape).map fun entry => ⟨entry, parameters, false⟩, c)

def clearCache (c : Compiler) : Compiler := { c with cache := c.cache.clear }

end Compiler

end QueryLowering
