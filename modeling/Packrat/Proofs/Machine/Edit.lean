/-
Edits of the part of the state that a failure brings back: the frame stack, the tree log and the
bindings. About fifty operations amount to a dozen edits of that part, and `alt`, `guard` and
`step`, which set the choice points, are the only ones that are no sequence of them. An invariant
of the stack is shown for each edit and for the two ways to set a choice point.
-/

import Mathlib.Logic.Relation
import Packrat.Machine.Run

namespace Packrat

def Frame.isPlain : Frame → Bool
  | .ret _ => true
  | .position _ => true
  | .count _ => true
  | _ => false

def Op.setsChoice {t : Type} : Op t → Bool
  | .control (.alt _) => true
  | .control .guard => true
  | .control .step => true
  | _ => false

namespace Machine

variable {σ τ : Type}

def after : Effect σ τ → Machine σ τ
  | .goto _ m => m
  | .fail m => m
  | .halt _ m => m

def reached : Transition σ τ → Machine σ τ
  | .goto _ m => m
  | .halt _ m => m

structure SameStack (m m' : Machine σ τ) : Prop where
  frames : m'.frames = m.frames
  catchIndex : m'.catchIndex = m.catchIndex

/-- Two states with the same stack, log and bindings. The cursor, the memo table, the statistics and
the state of the factory may differ. -/
structure SameUndo (m m' : Machine σ τ) : Prop extends SameStack m m' where
  log : m'.log = m.log
  bindings : m'.bindings = m.bindings

namespace SameStack

theorem trans {m₁ m₂ m₃ : Machine σ τ} (first : SameStack m₁ m₂) (second : SameStack m₂ m₃) :
    SameStack m₁ m₃ :=
  ⟨second.frames.trans first.frames, second.catchIndex.trans first.catchIndex⟩

theorem symm {m m' : Machine σ τ} (same : SameStack m m') : SameStack m' m :=
  ⟨same.frames.symm, same.catchIndex.symm⟩

end SameStack

namespace SameUndo

theorem refl (m : Machine σ τ) : SameUndo m m := ⟨⟨rfl, rfl⟩, rfl, rfl⟩

theorem trans {m₁ m₂ m₃ : Machine σ τ} (first : SameUndo m₁ m₂) (second : SameUndo m₂ m₃) :
    SameUndo m₁ m₃ :=
  ⟨first.toSameStack.trans second.toSameStack, second.log.trans first.log,
    second.bindings.trans first.bindings⟩

theorem symm {m m' : Machine σ τ} (same : SameUndo m m') : SameUndo m' m :=
  ⟨same.toSameStack.symm, same.log.symm, same.bindings.symm⟩

end SameUndo

structure Pops (m : Machine σ τ) (frame : Frame) : Prop where
  top : m.frames.back? = some frame
  free : frame.choice? = none ∨ m.catchIndex ≠ some (m.frames.size - 1)

inductive Edit (m : Machine σ τ) : Machine σ τ → Prop
  | keep {m' : Machine σ τ} (same : SameUndo m m') : Edit m m'
  | push (frame : Frame) (plain : frame.isPlain = true) : Edit m (m.push frame)
  | checkpoint : Edit m (m.push (.tree m.log.mark))
  | enter : Edit m (m.push (.bindings m.bindings.save))
  | drop (frame : Frame) (pops : m.Pops frame) : Edit m m.drop
  | cut (index : Nat) (point : ChoicePoint) (innermost : m.catchIndex = some index)
      (found : m.frames[index]? = some (.choice point)) : Edit m (m.cut index point)
  | append (intent : Intent τ) : Edit m (m.logged fun log => log.append intent)
  | link (label : Symbol) (child : Option τ) : Edit m (m.logged fun log => log.link label child)
  | emit (factory : TreeFactory σ τ) (mark : LogMark) (label : Symbol)
      (pops : m.Pops (.tree mark)) :
      Edit m
        { m.drop with
          log := (m.log.commit factory mark label m.nodes).1
          nodes := (m.log.commit factory mark label m.nodes).2 }
  | leave (mark : BindingMark) (pops : m.Pops (.bindings mark)) :
      Edit m (m.drop.withBindings fun bindings => bindings.restore mark)
  | define (table : Symbol) (value : Bytes) :
      Edit m (m.withBindings fun bindings => bindings.define table value)
  | mask (table : Symbol) : Edit m (m.withBindings fun bindings => bindings.mask table)

abbrev Edits : Machine σ τ → Machine σ τ → Prop := Relation.ReflTransGen Edit

theorem Edits.one {m m' : Machine σ τ} (edit : Edit m m') : Edits m m' :=
  Relation.ReflTransGen.single edit

theorem Edits.same {m m' : Machine σ τ} (same : SameUndo m m') : Edits m m' :=
  Edits.one (.keep same)

/-! ### Reading the stack -/

theorem top_ok {m : Machine σ τ} {site : Site} {expected : FrameKind} {frame : Frame}
    (top : m.top site expected = .ok frame) : m.Pops frame := by
  unfold Machine.top at top
  by_cases caught : m.catchIndex = some (m.frames.size - 1)
  · rw [if_pos caught] at top
    cases top
  · rw [if_neg caught] at top
    cases back : m.frames.back? with
    | none => rw [back] at top; cases top
    | some found => rw [back] at top; cases top; exact ⟨back, .inr caught⟩

/-- A pop removes the top frame, also where it is not of the kind that was asked for. -/
theorem popAs_cases {α : Type} (read : Frame → Option α) (expected : FrameKind)
    (m : Machine σ τ) (site : Site) :
    (∃ frame content, m.Pops frame ∧ read frame = some content ∧
        m.popAs read expected site = .ok (content, m.drop)) ∨
      (∃ frame fault, m.Pops frame ∧ m.popAs read expected site = .error (fault, m.drop)) ∨
      ∃ fault, m.popAs read expected site = .error (fault, m) := by
  unfold popAs
  cases top : m.top site expected with
  | error fault => exact .inr (.inr ⟨fault, rfl⟩)
  | ok frame =>
      have pops := top_ok top
      cases content : read frame with
      | none => exact .inr (.inl ⟨frame, .frameMismatch site expected (some frame.kind), pops,
            by simp only [content]⟩)
      | some value => exact .inl ⟨frame, value, pops, content, by simp only [content]⟩

theorem innermost_ok {m : Machine σ τ} {site : Site} {index : Nat} {point : ChoicePoint}
    (found : m.innermost site = .ok (index, point)) :
    m.catchIndex = some index ∧ m.frames[index]? = some (.choice point) := by
  unfold innermost at found
  cases caught : m.catchIndex with
  | none => rw [caught] at found; cases found
  | some place =>
      rw [caught] at found
      cases frame : m.frames[place]? with
      | none => simp only [frame, Option.bind_none] at found; cases found
      | some content =>
          cases content with
          | choice inner =>
              simp only [frame, Option.bind_some, Frame.choice?] at found
              cases found
              exact ⟨rfl, frame⟩
          | ret | position | tree | bindings | count =>
              simp only [frame, Option.bind_some, Frame.choice?] at found
              cases found

theorem innermost_eq {m : Machine σ τ} {index : Nat} {point : ChoicePoint}
    (caught : m.catchIndex = some index) (found : m.frames[index]? = some (.choice point))
    (site : Site) : m.innermost site = .ok (index, point) := by
  simp only [innermost, caught, found, Option.bind_some, Frame.choice?]

end Machine

end Packrat
