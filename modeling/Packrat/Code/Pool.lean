/-
Pools hand out dense handles. A handle is the place of an entry in the order of first use, so equal
entries share one handle and a handle never changes its meaning. A pool keeps two things, the
entries by their handles and a map back from an entry to its handle, and each new entry is put into
both of them.
-/

import Std.Data.ExtHashMap

namespace Packrat

structure PoolError where
  pool : String
  count : Nat
  max : Nat
deriving DecidableEq, Repr

def PoolError.message (e : PoolError) : String :=
  s!"{e.pool} exceeded capacity: {e.count} entries, max is {e.max}"

/-- The greatest handle of every pool but the pool of names: the bit above it marks a reference to
a label. -/
def maxHandle : Nat := 0x7fffffff

def maxSymbol : Nat := 0xffffffff

def nextHandle (pool : String) (max count : Nat) : Except PoolError Nat :=
  if count ≤ max then .ok count else .error ⟨pool, count, max⟩

/-- The entries in the order of their first use, and the map that tells whether an entry is among
them. Nothing but `intern` keeps the two in step. -/
structure Pool (α : Type) [BEq α] [Hashable α] where
  handles : Std.ExtHashMap α Nat
  entries : Array α

namespace Pool

variable {α : Type} [BEq α] [LawfulBEq α] [Hashable α]

def empty : Pool α := ⟨∅, #[]⟩

instance : Inhabited (Pool α) := ⟨empty⟩

def size (pool : Pool α) : Nat := pool.entries.size

def get? (pool : Pool α) (handle : Nat) : Option α := pool.entries[handle]?

/-- The handle of an entry, as the map has it. -/
def find? (pool : Pool α) (entry : α) : Option Nat := pool.handles[entry]?

/-- The handle of an entry, which is added unless the map has it. -/
def intern (name : String) (max : Nat) (pool : Pool α) (entry : α) :
    Except PoolError (Nat × Pool α) :=
  match pool.find? entry with
  | some handle => .ok (handle, pool)
  | none =>
    match nextHandle name max pool.size with
    | .ok handle =>
      .ok (handle, ⟨pool.handles.insert entry handle, pool.entries.push entry⟩)
    | .error e => .error e

end Pool

end Packrat
