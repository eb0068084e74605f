/-
What a finished run reports, and the syntax error that its caller sees in place of a tree.
-/

import Packrat.Input.Basic
import Packrat.Report.Stats

namespace Packrat

structure Outcome (τ : Type) where
  matched : Bool
  /-- The tree of a match. -/
  tree : Option τ
  /-- The cursor at the exit. -/
  position : Nat
  /-- The furthest position that the cursor reached. -/
  maxPosition : Nat
  stats : RunStats
  /-- Whether input that is left over is an error. -/
  rejectUnconsumed : Bool

inductive SyntaxErrorKind where
  /-- The grammar does not match. -/
  | noMatch
  /-- The grammar matches a part, and input is left over. -/
  | unconsumed
deriving DecidableEq, Repr

structure SyntaxError where
  kind : SyntaxErrorKind
  position : Nat
  line : Nat
  column : Nat
deriving DecidableEq, Repr

namespace SyntaxError

def located (kind : SyntaxErrorKind) (position : Nat) (input : Input) : SyntaxError :=
  ⟨kind, position, input.lineOf position, input.columnOf position⟩

def message (e : SyntaxError) : String :=
  s!"syntax error at {e.line}:{e.column}"

end SyntaxError

namespace Outcome

variable {τ : Type}

def hasUnconsumed (outcome : Outcome τ) (length : Nat) : Bool :=
  outcome.matched && outcome.position != length

/-- The tree, or the syntax error that takes its place. Input left over is an error at the cursor,
where it is one at all; no match is an error at the furthest position. -/
def result (outcome : Outcome τ) (input : Input) : Except SyntaxError τ :=
  if outcome.rejectUnconsumed && outcome.hasUnconsumed input.size then
    .error (.located .unconsumed outcome.position input)
  else
    match outcome.tree, outcome.matched with
    | some tree, true => .ok tree
    | _, _ => .error (.located .noMatch outcome.maxPosition input)

end Outcome

end Packrat
