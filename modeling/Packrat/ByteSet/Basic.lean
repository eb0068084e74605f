/-
Sets of byte values, one bit for each value. The bits lie in four words of 64, the upper two bits of
a byte choosing the word and the lower six the place in it. Two sets with the same members are equal,
so a set can be pooled by equality.
-/

import Packrat.Bytes

namespace Packrat

/-- A set of bytes: bit `b % 64` of word `b / 64` says whether `b` is a member. -/
structure ByteSet where
  words : Vector UInt64 4
deriving DecidableEq, Repr

instance : Hashable ByteSet := ⟨fun set => hash set.words.toArray⟩

namespace ByteSet

def empty : ByteSet := ⟨.replicate 4 0⟩

instance : Inhabited ByteSet := ⟨empty⟩

def wordIndex (b : UInt8) : Fin 4 :=
  ⟨(b >>> 6).toNat, by
    rw [UInt8.toNat_shiftRight, Nat.shiftRight_eq_div_pow]
    exact Nat.div_lt_of_lt_mul b.toNat_lt⟩

def mask (b : UInt8) : UInt64 :=
  1 <<< (b &&& 63).toUInt64

def contains (set : ByteSet) (b : UInt8) : Bool :=
  set.words.get (wordIndex b) &&& mask b != 0

def insert (set : ByteSet) (b : UInt8) : ByteSet :=
  ⟨set.words.set (wordIndex b) (set.words.get (wordIndex b) ||| mask b)⟩

/-- The bytes from `low` to `high`, both included; none when `high` is below `low`. -/
def interval (low high : UInt8) : List UInt8 :=
  (List.range' low.toNat (high.toNat + 1 - low.toNat)).map UInt8.ofNat

def insertRange (set : ByteSet) (low high : UInt8) : ByteSet :=
  (interval low high).foldl insert set

def ofBytes (bytes : Bytes) : ByteSet :=
  bytes.foldl insert empty

def ofRanges (ranges : List (UInt8 × UInt8)) : ByteSet :=
  ranges.foldl (fun set range => set.insertRange range.1 range.2) empty

def negate (set : ByteSet) : ByteSet :=
  ⟨set.words.map (~~~·)⟩

def allBytes : List UInt8 :=
  (List.range 256).map UInt8.ofNat

def members (set : ByteSet) : List UInt8 :=
  allBytes.filter set.contains

def size (set : ByteSet) : Nat :=
  set.words.foldl (fun count word => count + word.toBitVec.cpop.toNat) 0

def isEmpty (set : ByteSet) : Bool :=
  set.words == .replicate 4 0

end ByteSet

end Packrat
