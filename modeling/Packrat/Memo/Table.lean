/-
The table of memoized outcomes. A lookup answers with an outcome that was recorded for the same memo
point at the same position, and under the same state of the bindings where that matters; where it
has none, the rule is evaluated again. So a table that forgets costs time and nothing else.
-/

import Std.Data.HashMap
import Packrat.Code.Instruction
import Packrat.Options

namespace Packrat

structure MemoEntry (τ : Type) where
  failed : Bool
  /-- The number of bytes that a match consumed. -/
  consumed : Nat
  /-- The node that a match attached. -/
  result : Option τ
  /-- The state number of the bindings that the rule was entered with, zero for a rule that does not
  depend on them. -/
  state : Nat
deriving DecidableEq, Repr

def MemoEntry.isFresh {τ : Type} (entry : MemoEntry τ) : Option Nat → Bool
  | none => true
  | some state => state == entry.state

structure MemoSlot (τ : Type) where
  pos : Nat
  point : MemoId
  entry : MemoEntry τ
deriving Repr

inductive MemoStore (τ : Type) where
  | disabled
  /-- A fixed number of slots; a key is shifted by `shift` bits of its position. -/
  | elastic (slots : Array (Option (MemoSlot τ))) (shift : Nat)
  /-- All entries of a position, newest first. -/
  | exact (entries : Std.HashMap Nat (List (MemoId × MemoEntry τ)))

/-- A table and its counters: entries written, lookups answered, and stale entries met. -/
structure MemoTable (τ : Type) where
  store : MemoStore τ
  stored : Nat
  used : Nat
  invalidated : Nat

namespace MemoTable

variable {τ : Type}

/-! ### Sizing -/

def ofStore (store : MemoStore τ) : MemoTable τ := ⟨store, 0, 0, 0⟩

instance : Inhabited (MemoTable τ) := ⟨ofStore .disabled⟩

def bitLength (n : Nat) : Nat :=
  if n = 0 then 0 else Nat.log2 n + 1

/-- A size as a word of 64 bits holds it: the greatest word stands for what is above it. -/
def saturate (size : Nat) : Nat := min size 0xffffffffffffffff

/-- A table of slots, at least one and at most `Options.maxSlots`, for a number of memo points. -/
def elastic (capacity points : Nat) : MemoTable τ :=
  let count := min (max capacity 1) Options.maxSlots
  ofStore (.elastic (Array.replicate count none) (bitLength points))

/-- A table for a number of memo points. Without memo points or with an empty window there is
nothing to memoize. -/
def new (strategy : MemoStrategy) (window points : Nat) : MemoTable τ :=
  if points = 0 ∨ window = 0 then ofStore .disabled
  else
    match strategy with
    | .disabled => ofStore .disabled
    | .elastic => elastic (saturate (saturate (window * points) + 1)) points
    | .exact => ofStore (.exact ∅)

/-- The table of a run. A number of slots that is given takes the place of the one that follows
from the window. -/
def ofOptions (options : Options) (points : Nat) : MemoTable τ :=
  match options.memo, options.slots with
  | .elastic, some 0 => ofStore .disabled
  | .elastic, some (slots + 1) =>
    if points = 0 then ofStore .disabled else elastic (slots + 1) points
  | strategy, _ => new strategy options.window points

def isDisabled (table : MemoTable τ) : Bool :=
  match table.store with
  | .disabled => true
  | _ => false

def slotCount? (table : MemoTable τ) : Option Nat :=
  match table.store with
  | .disabled => some 0
  | .elastic slots _ => some slots.size
  | .exact _ => none

/-! ### Reading and writing -/

/-- The slot of a memo point at a position. Position and point are joined in one word of 64 bits,
and what is shifted out of it is lost. -/
def slotIndex (pos : Nat) (point : MemoId) (shift count : Nat) : Nat :=
  let key := (UInt64.ofNat pos <<< UInt64.ofNat shift) ||| UInt64.ofNat point.index
  key.toNat % count

/-- The first fresh entry of a memo point in a list, and the number of stale ones before it. -/
def firstFresh (point : MemoId) (state : Option Nat) :
    (stale : Nat) → List (MemoId × MemoEntry τ) → Option (MemoEntry τ) × Nat
  | stale, [] => (none, stale)
  | stale, (other, entry) :: older =>
    if other = point then
      if entry.isFresh state then (some entry, stale) else firstFresh point state (stale + 1) older
    else firstFresh point state stale older

def find (table : MemoTable τ) (pos : Nat) (point : MemoId) (state : Option Nat) :
    Option (MemoEntry τ) × Nat :=
  match table.store with
  | .disabled => (none, 0)
  | .elastic slots shift =>
    match slots[slotIndex pos point shift slots.size]? with
    | some (some slot) =>
      if slot.pos = pos ∧ slot.point = point then
        if slot.entry.isFresh state then (some slot.entry, 0) else (none, 1)
      else (none, 0)
    | _ => (none, 0)
  | .exact entries => firstFresh point state 0 (entries.getD pos [])

def lookup (table : MemoTable τ) (pos : Nat) (point : MemoId) (state : Option Nat) :
    Option (MemoEntry τ) × MemoTable τ :=
  let (found, stale) := table.find pos point state
  (found,
    { table with
      used := table.used + (if found.isSome then 1 else 0)
      invalidated := table.invalidated + stale })

def record (table : MemoTable τ) (pos : Nat) (point : MemoId) (entry : MemoEntry τ) :
    MemoTable τ :=
  match table with
  | ⟨.disabled, stored, used, invalidated⟩ => ⟨.disabled, stored, used, invalidated⟩
  | ⟨.elastic slots shift, stored, used, invalidated⟩ =>
    let index := slotIndex pos point shift slots.size
    ⟨.elastic (slots.setIfInBounds index (some ⟨pos, point, entry⟩)) shift, stored + 1, used,
      invalidated⟩
  | ⟨.exact entries, stored, used, invalidated⟩ =>
    ⟨.exact (entries.insert pos ((point, entry) :: entries.getD pos [])), stored + 1, used,
      invalidated⟩

end MemoTable

end Packrat
