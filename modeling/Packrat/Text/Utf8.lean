/-
Reading bytes as UTF-8 text where the bytes need not be valid. Each longest piece that could have
begun a character but does not complete one becomes a single replacement character, and reading goes
on at the byte that broke it. Valid text is read as it stands.
-/

import Packrat.Bytes

namespace Packrat

namespace Utf8

/-- A character that has begun: the bits read so far, how many bytes are owed, and the range that
the next of them has to lie in. -/
structure Pending where
  bits : Nat
  owed : Nat
  low : UInt8
  high : UInt8
deriving DecidableEq, Repr

def replacement : Char := Char.ofNat 0xFFFD

/-- The start of a character at a byte: a whole character, a pending one, or none. The narrowed
ranges after the leading bytes E0, ED, F0 and F4 leave out overlong forms, surrogates and codes past
the last one. -/
def start (b : UInt8) : Sum Char (Option Pending) :=
  if b ≤ 0x7f then .inl (Ascii.char b)
  else if b < 0xc2 then .inr none
  else if b ≤ 0xdf then .inr (some ⟨b.toNat - 0xc0, 1, 0x80, 0xbf⟩)
  else if b ≤ 0xef then
    .inr (some ⟨b.toNat - 0xe0, 2, if b = 0xe0 then 0xa0 else 0x80, if b = 0xed then 0x9f else 0xbf⟩)
  else if b ≤ 0xf4 then
    .inr (some ⟨b.toNat - 0xf0, 3, if b = 0xf0 then 0x90 else 0x80, if b = 0xf4 then 0x8f else 0xbf⟩)
  else .inr none

structure Reader where
  text : String
  pending : Option Pending

def Reader.restart (text : String) (b : UInt8) : Reader :=
  match start b with
  | .inl c => ⟨text.push c, none⟩
  | .inr (some pending) => ⟨text, some pending⟩
  | .inr none => ⟨text.push replacement, none⟩

/-- Read one more byte. A byte outside the range of a pending character closes the character as a
replacement and begins anew. -/
def Reader.read (reader : Reader) (b : UInt8) : Reader :=
  match reader.pending with
  | none => Reader.restart reader.text b
  | some pending =>
    if pending.low ≤ b && b ≤ pending.high then
      let bits := pending.bits * 64 + (b.toNat - 0x80)
      if pending.owed ≤ 1 then ⟨reader.text.push (Char.ofNat bits), none⟩
      else ⟨reader.text, some ⟨bits, pending.owed - 1, 0x80, 0xbf⟩⟩
    else Reader.restart (reader.text.push replacement) b

def Reader.finish (reader : Reader) : String :=
  match reader.pending with
  | none => reader.text
  | some _ => reader.text.push replacement

end Utf8

/-- The bytes as text, with a replacement character for every piece that is not valid. -/
def Bytes.toText (bytes : Bytes) : String :=
  (bytes.foldl Utf8.Reader.read ⟨"", none⟩).finish

end Packrat
