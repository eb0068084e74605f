/-
The printed form of a byte set: the runs of consecutive members between brackets. A run of one
member is its token, a longer one its first and last token with a dash between, so `[0-9_]` is the
ten digits and the underscore.
-/

import Packrat.ByteSet.Basic

namespace Packrat.ByteSet

/-- The token of one byte: a visible character other than the three that structure the text, or a
hexadecimal escape. -/
def token (b : UInt8) : List Char :=
  if Ascii.isGraphic b && b ≠ 0x5d && b ≠ 0x5c && b ≠ 0x2d then [Ascii.char b]
  else Ascii.hexEscape b

/-- The maximal runs of consecutive bytes in an ascending list, each as its first and last byte. -/
def runs : List UInt8 → List (UInt8 × UInt8)
  | [] => []
  | b :: rest =>
    match runs rest with
    | [] => [(b, b)]
    | (low, high) :: more =>
      if low.toNat = b.toNat + 1 then (b, high) :: more else (b, b) :: (low, high) :: more

def runText (run : UInt8 × UInt8) : List Char :=
  if run.1 = run.2 then token run.1 else token run.1 ++ '-' :: token run.2

def chars (set : ByteSet) : List Char :=
  '[' :: (runs set.members).flatMap runText ++ [']']

def text (set : ByteSet) : String :=
  String.ofList set.chars

end Packrat.ByteSet
