/-
Words of a text: its longest pieces without a blank. A blank is a character with the Unicode
property White_Space.
-/

namespace Packrat.Text

/-- The ranges of the characters with the Unicode property White_Space. -/
def blankRanges : List (Nat × Nat) :=
  [(0x09, 0x0d), (0x20, 0x20), (0x85, 0x85), (0xa0, 0xa0), (0x1680, 0x1680), (0x2000, 0x200a),
    (0x2028, 0x2029), (0x202f, 0x202f), (0x205f, 0x205f), (0x3000, 0x3000)]

def isBlank (c : Char) : Bool :=
  blankRanges.any fun range => range.1 ≤ c.toNat && c.toNat ≤ range.2

/-- The words of a list of characters, given the letters of the word that has begun, last letter
first. -/
def wordsFrom (begun : List Char) : List Char → List (List Char)
  | [] => if begun.isEmpty then [] else [begun.reverse]
  | c :: rest =>
    if isBlank c then
      if begun.isEmpty then wordsFrom [] rest else begun.reverse :: wordsFrom [] rest
    else wordsFrom (c :: begun) rest

def words (text : String) : List String :=
  (wordsFrom [] text.toList).map String.ofList

end Packrat.Text
