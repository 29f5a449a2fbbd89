/-!
A cache of bounded size that drops what was put in first. Replacing a value neither drops anything
nor makes the entry younger.
-/

namespace QueryLowering

structure CacheStats where
  hits : Nat := 0
  misses : Nat := 0
  evictions : Nat := 0
deriving DecidableEq, Repr

/-- Entries stand in the order in which their keys were put in, the oldest first. -/
structure Cache (κ ν : Type) where
  capacity : Nat
  entries : List (κ × ν) := []
  stats : CacheStats := {}

namespace Cache

variable {κ ν : Type}

/-- An empty cache, which has room for at least one entry. -/
def ofCapacity (capacity : Nat) : Cache κ ν := { capacity := max capacity 1 }

def size (c : Cache κ ν) : Nat := c.entries.length

def isEmpty (c : Cache κ ν) : Bool := c.entries.isEmpty

/-- The keys, the oldest first. -/
def keys (c : Cache κ ν) : List κ := c.entries.map (·.1)

/-- Drops all entries; the counters go on. -/
def clear (c : Cache κ ν) : Cache κ ν := { c with entries := [] }

variable [DecidableEq κ]

/-- The value of a key. -/
def find? (c : Cache κ ν) (key : κ) : Option ν := c.entries.lookup key

/-- Looks a key up and counts the hit or miss. -/
def get (c : Cache κ ν) (key : κ) : Option ν × Cache κ ν :=
  match c.find? key with
  | some v => (some v, { c with stats := { c.stats with hits := c.stats.hits + 1 } })
  | none => (none, { c with stats := { c.stats with misses := c.stats.misses + 1 } })

/-- Gives a key that is there another value. -/
def replace (key : κ) (value : ν) : List (κ × ν) → List (κ × ν)
  | [] => []
  | e :: es => if e.1 = key then (key, value) :: es else e :: replace key value es

/-- Drops the oldest entries until there is room for one more. -/
def makeRoom (c : Cache κ ν) : Cache κ ν :=
  let excess := c.entries.length + 1 - c.capacity
  { c with
    entries := c.entries.drop excess
    stats := { c.stats with evictions := c.stats.evictions + excess } }

def insert (c : Cache κ ν) (key : κ) (value : ν) : Cache κ ν :=
  if (c.find? key).isSome then { c with entries := replace key value c.entries }
  else
    let c := c.makeRoom
    { c with entries := c.entries ++ [(key, value)] }

end Cache

end QueryLowering
