/-
The input of a run. Positions are byte offsets, and a read outside the input has an answer: there is
no byte, and a part is cut at the end. Lines are counted from one, and so are the columns in a line;
the starts of the lines are found once, so that a position is located by a binary search. What
searches the newlines is a parameter: a library may do it.
-/

import Packrat.Text.Utf8

namespace Packrat

/-- A search for a byte: the positions where it stands in a byte string. -/
abbrev ByteSearch := UInt8 → Bytes → List Nat

namespace ByteSearch

/-- What is known of a search: it finds the byte where it stands and nowhere else, from the front to
the back. -/
structure Finds (search : ByteSearch) : Prop where
  exact : ∀ b bytes pos, pos ∈ search b bytes ↔ bytes[pos]? = some b
  ascending : ∀ b bytes, (search b bytes).Pairwise (· < ·)

def scan : ByteSearch := fun b bytes =>
  (List.range bytes.size).filter fun pos => bytes[pos]? = some b

theorem scan_finds : scan.Finds where
  exact b bytes pos := by
    rw [scan, List.mem_filter, List.mem_range, decide_eq_true_iff]
    exact and_iff_right_of_imp fun found => (Array.getElem?_eq_some_iff.mp found).1
  ascending b bytes := List.pairwise_lt_range.filter _

end ByteSearch

structure Input where
  bytes : Bytes
  lineStarts : Array Nat

namespace Input

/-- The input of a byte string, whose lines start at its front and behind the newlines that the
search finds. -/
def indexed (search : ByteSearch) (bytes : Bytes) : Input :=
  ⟨bytes, (0 :: (search 0x0a bytes).map (· + 1)).toArray⟩

def ofBytes (bytes : Bytes) : Input :=
  indexed .scan bytes

def ofText (text : String) : Input :=
  ofBytes text.toUTF8.data

/-! ### Reading -/

def size (input : Input) : Nat := input.bytes.size

def isEmpty (input : Input) : Bool := input.size == 0

def byteAt? (input : Input) (pos : Nat) : Option UInt8 := input.bytes[pos]?

/-- Whether the bytes at a position begin with the given ones. Nothing begins beyond the end. -/
def matchesAt (input : Input) (pos : Nat) (bytes : Bytes) : Bool :=
  pos ≤ input.size && input.bytes.extract pos (pos + bytes.size) == bytes

def slice (input : Input) (start stop : Nat) : Bytes :=
  input.bytes.extract start stop

def textSlice (input : Input) (start stop : Nat) : String :=
  (input.slice start stop).toText

/-! ### Lines and columns -/

/-- The number of entries at most `pos` in the part from `low` up to `high` of an ascending list,
added to the `low` entries before it. The search halves the part until it is empty. -/
def countAtMost (starts : Array Nat) (pos : Nat) : (fuel low high : Nat) → Nat
  | 0, low, _ => low
  | fuel + 1, low, high =>
    if low < high then
      let mid := (low + high) / 2
      if starts.getD mid 0 ≤ pos then countAtMost starts pos fuel (mid + 1) high
      else countAtMost starts pos fuel low mid
    else low

/-- The number of lines that lie before the line of a position. A position beyond the end is in the
last line. -/
def lineIndex (input : Input) (pos : Nat) : Nat :=
  let starts := input.lineStarts
  countAtMost starts (min pos input.size) starts.size 0 starts.size - 1

def lineOf (input : Input) (pos : Nat) : Nat :=
  input.lineIndex pos + 1

def columnOf (input : Input) (pos : Nat) : Nat :=
  min pos input.size - input.lineStarts.getD (input.lineIndex pos) 0 + 1

end Input

end Packrat
