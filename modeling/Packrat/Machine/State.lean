/-
The state of a run. One stack holds return addresses, saved positions and checkpoints, counters and
choice points. `catchIndex` is the place of the innermost choice point, and each choice point holds
that of the one outside it, so that a failure cuts the stack at once. A choice point never leaves the
stack by an ordinary pop.
-/

import Packrat.Code.Program
import Packrat.Memo.Table
import Packrat.Report.Outcome
import Packrat.Bindings
import Packrat.Tree.Log

namespace Packrat

/-! ### Frames -/

structure ChoicePoint where
  failure : InstId
  pos : Nat
  tree : LogMark
  bindings : BindingMark
  /-- The place of the choice point outside this one. -/
  outer : Option Nat
deriving DecidableEq, Repr

inductive Frame where
  | choice (point : ChoicePoint)
  | ret (target : InstId)
  | position (pos : Nat)
  | tree (mark : LogMark)
  | bindings (mark : BindingMark)
  | count (left : UInt64)
deriving DecidableEq, Repr

inductive FrameKind where
  | choice
  | ret
  | position
  | tree
  | bindings
  | count
deriving DecidableEq, Repr

def FrameKind.name : FrameKind → String
  | .choice => "choice"
  | .ret => "return"
  | .position => "position"
  | .tree => "tree checkpoint"
  | .bindings => "symbol checkpoint"
  | .count => "counter"

namespace Frame

def kind : Frame → FrameKind
  | .choice _ => .choice
  | .ret _ => .ret
  | .position _ => .position
  | .tree _ => .tree
  | .bindings _ => .bindings
  | .count _ => .count

def choice? : Frame → Option ChoicePoint
  | .choice point => some point
  | _ => none

def ret? : Frame → Option InstId
  | .ret target => some target
  | _ => none

def position? : Frame → Option Nat
  | .position pos => some pos
  | _ => none

def tree? : Frame → Option LogMark
  | .tree mark => some mark
  | _ => none

def bindings? : Frame → Option BindingMark
  | .bindings mark => some mark
  | _ => none

end Frame

/-! ### Faults -/

structure Site where
  place : InstId
  op : Op InstId
deriving DecidableEq, Repr

/-- How a program breaks the discipline of the stack or leaves the input at its start. -/
inductive Fault where
  | frameMismatch (site : Site) (expected : FrameKind) (found : Option FrameKind)
  | noChoicePoint (site : Site)
  | cursorUnderflow (site : Site)
deriving DecidableEq, Repr

def Site.text (site : Site) : String :=
  s!"`{site.op.mnemonic}` at {site.place.text}"

def Fault.message : Fault → String
  | .frameMismatch site expected found =>
    let kind := (found.map FrameKind.name).getD "nothing"
    s!"{site.text} expected a {expected.name} frame, found {kind}"
  | .noChoicePoint site => s!"{site.text} has no enclosing choice point"
  | .cursorUnderflow site => s!"{site.text} moves the cursor before the start of input"

/-! ### Machine -/

/-- What a run works on: a program, an input, and a way to build nodes. -/
structure Task (σ τ : Type) where
  program : Program
  input : Input
  factory : TreeFactory σ τ

structure Machine (σ τ : Type) where
  pos : Nat
  /-- The furthest position that the cursor was taken back from. -/
  head : Nat
  frames : Array Frame
  /-- The place of the innermost choice point. -/
  catchIndex : Option Nat
  log : TreeLog τ
  bindings : Bindings
  memo : MemoTable τ
  stats : RunStats
  nodes : σ

namespace Machine

variable {σ τ : Type}

def initial (program : Program) (options : Options) (nodes : σ) : Machine σ τ :=
  let points := program.memoPoints.size
  { pos := 0
    head := 0
    frames := #[]
    catchIndex := none
    log := .new options.tree
    bindings := .empty
    memo := .ofOptions options points
    stats := .initial points
    nodes := nodes }

/-! ### Cursor -/

def maxPosition (m : Machine σ τ) : Nat := max m.head m.pos

/-- Set the cursor, and remember the position that it leaves. -/
def rollback (m : Machine σ τ) (pos : Nat) : Machine σ τ :=
  { m with head := max m.head m.pos, pos := pos }

def advance (m : Machine σ τ) (length : Nat) : Machine σ τ :=
  { m with pos := m.pos + length }

/-- A position with a shift applied; none if that is before the start or no machine word. -/
def shiftedFrom (pos : Nat) (shift : Int) : Option Nat :=
  let moved := (pos : Int) + shift
  if 0 ≤ moved ∧ moved < 0x10000000000000000 then some moved.toNat else none

/-! ### Stack -/

def push (m : Machine σ τ) (frame : Frame) : Machine σ τ :=
  { m with frames := m.frames.push frame }

def mismatch (m : Machine σ τ) (site : Site) (expected : FrameKind) (index : Nat) : Fault :=
  .frameMismatch site expected (m.frames[index]?.map Frame.kind)

/-- The top frame, unless it is the innermost choice point. -/
def top (m : Machine σ τ) (site : Site) (expected : FrameKind) : Except Fault Frame :=
  let index := m.frames.size - 1
  if m.catchIndex = some index then .error (m.mismatch site expected index)
  else
    match m.frames.back? with
    | none => .error (m.mismatch site expected index)
    | some frame => .ok frame

def drop (m : Machine σ τ) : Machine σ τ :=
  { m with frames := m.frames.pop }

/-- Pop the top frame and read it as a frame of the expected kind. A frame of another kind has been
popped all the same, but not the innermost choice point. -/
def popAs {α : Type} (read : Frame → Option α) (expected : FrameKind) (m : Machine σ τ)
    (site : Site) : Except (Fault × Machine σ τ) (α × Machine σ τ) :=
  match m.top site expected with
  | .error fault => .error (fault, m)
  | .ok frame =>
    match read frame with
    | some content => .ok (content, m.drop)
    | none => .error (.frameMismatch site expected (some frame.kind), m.drop)

def popPosition (m : Machine σ τ) (site : Site) :
    Except (Fault × Machine σ τ) (Nat × Machine σ τ) :=
  m.popAs Frame.position? .position site

def pushChoice (m : Machine σ τ) (failure : InstId) : Machine σ τ :=
  let index := m.frames.size
  let point : ChoicePoint := ⟨failure, m.pos, m.log.mark, m.bindings.save, m.catchIndex⟩
  { m with frames := m.frames.push (.choice point), catchIndex := some index }

def innermost (m : Machine σ τ) (site : Site) : Except Fault (Nat × ChoicePoint) :=
  match m.catchIndex with
  | none => .error (.noChoicePoint site)
  | some index =>
    match m.frames[index]?.bind Frame.choice? with
    | some point => .ok (index, point)
    | none => .error (m.mismatch site .choice index)

def cut (m : Machine σ τ) (index : Nat) (point : ChoicePoint) : Machine σ τ :=
  { m with frames := m.frames.shrink index, catchIndex := point.outer }

def renewChoice (m : Machine σ τ) (index : Nat) (point : ChoicePoint) : Machine σ τ :=
  let renewed :=
    { point with pos := m.pos, tree := m.log.mark, bindings := m.bindings.save }
  { m with frames := m.frames.setIfInBounds index (.choice renewed) }

end Machine

end Packrat
