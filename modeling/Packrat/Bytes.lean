/-
Byte strings and their printable escapes. An escape is ASCII text that stands for one byte, so text
written with escapes holds no control character and no quote or backslash of its own.
-/

namespace Packrat

abbrev Bytes := Array UInt8

instance : LawfulBEq Bytes := inferInstanceAs (LawfulBEq (Array UInt8))

namespace Ascii

def hexDigit (n : Nat) : Char :=
  if n < 10 then Char.ofNat (48 + n) else Char.ofNat (87 + n)

def hexEscape (b : UInt8) : List Char :=
  ['\\', 'x', hexDigit (b.toNat / 16), hexDigit (b.toNat % 16)]

def isGraphic (b : UInt8) : Bool :=
  0x21 ≤ b && b ≤ 0x7e

def char (b : UInt8) : Char :=
  Char.ofNat b.toNat

/-- A byte as it stands in a quoted literal: tab, line ends, quotes and backslash by a letter or
themselves after a backslash, the other printable bytes as they are, the rest in hexadecimal. -/
def escape (b : UInt8) : List Char :=
  if b = 0x09 then ['\\', 't']
  else if b = 0x0a then ['\\', 'n']
  else if b = 0x0d then ['\\', 'r']
  else if b = 0x22 || b = 0x27 || b = 0x5c then ['\\', char b]
  else if b = 0x20 || isGraphic b then [char b]
  else hexEscape b

end Ascii

def Bytes.escaped (bytes : Bytes) : String :=
  String.ofList (bytes.toList.flatMap Ascii.escape)

end Packrat
