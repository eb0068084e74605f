/-
Scoped bindings of names to byte strings. All tables share one stack of entries, so the state to
return to when a scope closes is the size of the stack. The state number changes whenever what is
visible may have changed, and is what it was when an earlier stack is restored: rules whose outcome
depends on bindings are memoized under it.
-/

import Packrat.Bytes
import Packrat.Code.Symbol

namespace Packrat

/-- One binding of a table, or a mask that hides the bindings below it. -/
structure Binding where
  /-- The state number from this entry on. -/
  state : Nat
  table : Symbol
  /-- The bound bytes; none for a mask. -/
  value : Option Bytes
deriving DecidableEq, Repr

structure BindingMark where
  size : Nat
deriving DecidableEq, Repr, Inhabited

/-- The stack of bindings, newest last, its state number, and the greatest number given out. -/
structure Bindings where
  entries : Array Binding
  state : Nat
  generation : Nat
deriving DecidableEq, Repr

namespace Bindings

def empty : Bindings := ⟨#[], 0, 0⟩

instance : Inhabited Bindings := ⟨empty⟩

def size (bindings : Bindings) : Nat := bindings.entries.size

def isEmpty (bindings : Bindings) : Bool := bindings.entries.isEmpty

/-! ### Reading -/

def lookupBelow (table : Symbol) (entries : Array Binding) : (count : Nat) → Option Bytes
  | 0 => none
  | count + 1 =>
    match entries[count]? with
    | none => lookupBelow table entries count
    | some entry =>
      if entry.table = table then entry.value else lookupBelow table entries count

/-- Whether one of the oldest `count` entries binds a table to the bytes, with no mask of the table
after it. -/
def containsBelow (table : Symbol) (bytes : Bytes) (entries : Array Binding) :
    (count : Nat) → Bool
  | 0 => false
  | count + 1 =>
    match entries[count]? with
    | none => containsBelow table bytes entries count
    | some entry =>
      if entry.table = table then
        match entry.value with
        | none => false
        | some value =>
          if value = bytes then true else containsBelow table bytes entries count
      else containsBelow table bytes entries count

def lookup (bindings : Bindings) (table : Symbol) : Option Bytes :=
  lookupBelow table bindings.entries bindings.size

def bound (bindings : Bindings) (table : Symbol) : Bool :=
  (bindings.lookup table).isSome

def isLatest (bindings : Bindings) (table : Symbol) (bytes : Bytes) : Bool :=
  bindings.lookup table == some bytes

def contains (bindings : Bindings) (table : Symbol) (bytes : Bytes) : Bool :=
  containsBelow table bytes bindings.entries bindings.size

/-! ### Binding -/

/-- Push an entry. A change of what is visible is given a new state number. -/
def push (bindings : Bindings) (table : Symbol) (value : Option Bytes) (unchanged : Bool) :
    Bindings :=
  if unchanged then
    { bindings with entries := bindings.entries.push ⟨bindings.state, table, value⟩ }
  else
    let state := bindings.generation + 1
    ⟨bindings.entries.push ⟨state, table, value⟩, state, state⟩

/-- Bind a table to a value, over its earlier bindings. Binding it to its latest value again changes
nothing that is visible. -/
def define (bindings : Bindings) (table : Symbol) (value : Bytes) : Bindings :=
  bindings.push table (some value) (bindings.isLatest table value)

def mask (bindings : Bindings) (table : Symbol) : Bindings :=
  bindings.push table none (!bindings.bound table)

/-! ### Scopes -/

def save (bindings : Bindings) : BindingMark := ⟨bindings.size⟩

/-- Drop every entry made since the mark. A mark beyond the stack drops nothing. -/
def restore (bindings : Bindings) (mark : BindingMark) : Bindings :=
  if mark.size < bindings.size then
    let entries := bindings.entries.shrink mark.size
    { bindings with entries := entries, state := (entries.back?.map Binding.state).getD 0 }
  else bindings

/-- The state number as it was when the mark was taken, zero for the mark of no entries and for one
beyond the stack. -/
def stateAt (bindings : Bindings) (mark : BindingMark) : Nat :=
  match mark.size with
  | 0 => 0
  | last + 1 => (bindings.entries[last]?.map Binding.state).getD 0

end Bindings

end Packrat
