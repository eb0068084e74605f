/-
Tests of the input at a position. A test that succeeds says how many bytes it consumes.
-/

import Packrat.ByteSet.Basic
import Packrat.Code.Instruction
import Packrat.Input.Basic

namespace Packrat.Pattern

def length? (input : Input) (pos : Nat) : Pattern ByteSet Bytes → Option Nat
  | .byte b => if input.byteAt? pos = some b then some 1 else none
  | .set members =>
    match input.byteAt? pos with
    | some b => if members.contains b then some 1 else none
    | none => none
  | .literal bytes => if input.matchesAt pos bytes then some bytes.size else none
  | .any => if (input.byteAt? pos).isSome then some 1 else none

/-- The position after at most `fuel` matches of a pattern one behind the other, each of which
consumes something. -/
def skip (input : Input) (pattern : Pattern ByteSet Bytes) : (fuel pos : Nat) → Nat
  | 0, pos => pos
  | fuel + 1, pos =>
    match pattern.length? input pos with
    | some (length + 1) => skip input pattern fuel (pos + (length + 1))
    | _ => pos

/-- The position after as many matches as there are. Each takes a byte of what is left, so there are
no more of them than bytes. -/
def skipAll (input : Input) (pattern : Pattern ByteSet Bytes) (pos : Nat) : Nat :=
  pattern.skip input (input.size - pos) pos

end Packrat.Pattern
