/-
The chain of choice points. The machine keeps the place of the innermost choice point, and each
choice point that of the one outside it. These places are always the true ones, whatever program is
run and from wherever, so that failing finds a choice point where it looks for one.
-/

import Mathlib.Data.List.Induction
import Packrat.Proofs.Machine.Invariant

namespace Packrat

/-! ### The topmost choice point of a stack -/

def lastChoice : List Frame → Option Nat
  | [] => none
  | frame :: rest =>
    match lastChoice rest with
    | some index => some (index + 1)
    | none => if frame.choice?.isSome then some 0 else none

theorem lastChoice_concat (frames : List Frame) (frame : Frame) :
    lastChoice (frames ++ [frame]) =
      if frame.choice?.isSome then some frames.length else lastChoice frames := by
  induction frames with
  | nil => rfl
  | cons first rest ih =>
      rw [List.cons_append, lastChoice, ih]
      cases frame.choice?.isSome with
      | true => rfl
      | false => rfl

theorem lastChoice_found {frames : List Frame} {index : Nat}
    (last : lastChoice frames = some index) :
    ∃ point, frames[index]? = some (.choice point) := by
  induction frames using List.reverseRecOn with
  | nil => cases last
  | append_singleton frames frame ih =>
      rw [lastChoice_concat] at last
      cases frame with
      | choice point =>
          simp only [Frame.choice?, Option.isSome_some, if_true, Option.some.injEq] at last
          subst last
          exact ⟨point, List.getElem?_concat_length⟩
      | ret | position | tree | bindings | count =>
          simp only [Frame.choice?, Option.isSome_none, Bool.false_eq_true, if_false] at last
          obtain ⟨point, found⟩ := ih last
          have within := (List.getElem?_eq_some_iff.mp found).1
          exact ⟨point, by rw [List.getElem?_append_left within]; exact found⟩

theorem lastChoice_set {frames : List Frame} {index : Nat} {point : ChoicePoint}
    (found : frames[index]? = some (.choice point)) (other : ChoicePoint) :
    lastChoice (frames.set index (.choice other)) = lastChoice frames := by
  induction frames generalizing index with
  | nil => cases found
  | cons frame rest ih =>
      cases index with
      | zero =>
          rw [List.getElem?_cons_zero, Option.some.injEq] at found
          rw [found]
          rfl
      | succ index =>
          rw [List.getElem?_cons_succ] at found
          rw [List.set_cons_succ, lastChoice, lastChoice, ih found]

/-! ### The chain -/

/-- The places of choice points are kept truly: the innermost one by the machine, and below every
choice point the one outside it by that choice point. -/
structure Chained (frames : List Frame) (catchIndex : Option Nat) : Prop where
  innermost : catchIndex = lastChoice frames
  outer : ∀ index point, frames[index]? = some (.choice point) →
    point.outer = lastChoice (frames.take index)

namespace Chained

variable {frames : List Frame} {catchIndex : Option Nat}

theorem nil : Chained [] none :=
  ⟨rfl, fun _ _ found => by cases found⟩

theorem found (chained : Chained frames catchIndex) {index : Nat}
    (caught : catchIndex = some index) : ∃ point, frames[index]? = some (.choice point) :=
  lastChoice_found (chained.innermost.symm.trans caught)

theorem concat (chained : Chained frames catchIndex) {frame : Frame}
    (plain : frame.choice? = none) : Chained (frames ++ [frame]) catchIndex := by
  constructor
  · rw [lastChoice_concat, plain]
    exact chained.innermost
  · intro index point found
    have below : index < frames.length := by
      have within := (List.getElem?_eq_some_iff.mp found).1
      rw [List.length_append, List.length_singleton] at within
      rcases Nat.lt_succ_iff_lt_or_eq.mp within with below | top
      · exact below
      · rw [top, List.getElem?_concat_length, Option.some.injEq] at found
        rw [found] at plain
        cases plain
    rw [List.getElem?_append_left below] at found
    rw [List.take_append_of_le_length (Nat.le_of_lt below)]
    exact chained.outer index point found

theorem take (chained : Chained frames catchIndex) (count : Nat) :
    Chained (frames.take count) (lastChoice (frames.take count)) := by
  refine ⟨rfl, fun index point found => ?_⟩
  have within := (List.getElem?_eq_some_iff.mp found).1
  have below : index < count := Nat.lt_of_lt_of_le within (List.length_take_le count frames)
  rw [List.getElem?_take_of_lt below] at found
  rw [List.take_take, Nat.min_eq_left (Nat.le_of_lt below)]
  exact chained.outer index point found

theorem cut (chained : Chained frames catchIndex) {index : Nat} {point : ChoicePoint}
    (found : frames[index]? = some (.choice point)) :
    Chained (frames.take index) point.outer := by
  rw [chained.outer index point found]
  exact chained.take index

theorem choice (chained : Chained frames catchIndex) {point : ChoicePoint}
    (outer : point.outer = catchIndex) :
    Chained (frames ++ [.choice point]) (some frames.length) := by
  constructor
  · rw [lastChoice_concat]
    rfl
  · intro index other found
    have within := (List.getElem?_eq_some_iff.mp found).1
    rw [List.length_append, List.length_singleton] at within
    rcases Nat.lt_succ_iff_lt_or_eq.mp within with below | top
    · rw [List.getElem?_append_left below] at found
      rw [List.take_append_of_le_length (Nat.le_of_lt below)]
      exact chained.outer index other found
    · subst top
      rw [List.getElem?_concat_length, Option.some.injEq, Frame.choice.injEq] at found
      rw [List.take_left, ← found, outer]
      exact chained.innermost

theorem renew (chained : Chained frames catchIndex) {index : Nat} {point renewed : ChoicePoint}
    (found : frames[index]? = some (.choice point)) (outer : renewed.outer = point.outer) :
    Chained (frames.set index (.choice renewed)) catchIndex := by
  constructor
  · rw [lastChoice_set found]
    exact chained.innermost
  · intro place other same
    rw [List.take_set]
    rcases Nat.lt_trichotomy place index with below | here | above
    · rw [List.getElem?_set_ne (Nat.ne_of_gt below)] at same
      have short : (frames.take place).length ≤ index :=
        Nat.le_trans (List.length_take_le place frames) (Nat.le_of_lt below)
      rw [List.set_eq_of_length_le short]
      exact chained.outer place other same
    · subst here
      have within := (List.getElem?_eq_some_iff.mp found).1
      rw [List.getElem?_set_self within, Option.some.injEq, Frame.choice.injEq] at same
      rw [List.set_eq_of_length_le (List.length_take_le place frames), ← same, outer]
      exact chained.outer place point found
    · rw [List.getElem?_set_ne (Nat.ne_of_lt above)] at same
      rw [lastChoice_set ((List.getElem?_take_of_lt above).trans found)]
      exact chained.outer place other same

end Chained

namespace Machine

variable {σ τ : Type}

def Chained (m : Machine σ τ) : Prop :=
  Packrat.Chained m.frames.toList m.catchIndex

namespace Chained

variable {m m' : Machine σ τ}

theorem found (chained : m.Chained) {index : Nat} (caught : m.catchIndex = some index) :
    ∃ point, m.frames[index]? = some (.choice point) := by
  obtain ⟨point, found⟩ := Packrat.Chained.found chained caught
  exact ⟨point, by rw [← Array.getElem?_toList]; exact found⟩

theorem same (chained : m.Chained) (same : SameStack m m') : m'.Chained := by
  unfold Machine.Chained
  rw [same.frames, same.catchIndex]
  exact chained

theorem push (chained : m.Chained) {frame : Frame} (plain : frame.choice? = none) :
    (m.push frame).Chained := by
  unfold Machine.Chained Machine.push
  rw [Array.toList_push]
  exact Packrat.Chained.concat chained plain

theorem pops_choice (chained : m.Chained) {frame : Frame} (pops : m.Pops frame) :
    frame.choice? = none := by
  rcases pops.free with plain | free
  · exact plain
  · cases frame with
    | choice point =>
        have top := pops.top
        rw [← Array.getLast?_toList] at top
        obtain ⟨below, split⟩ := List.getLast?_eq_some_iff.mp top
        have last : m.catchIndex = some below.length := by
          rw [chained.innermost, split, lastChoice_concat]
          rfl
        have size : m.frames.size = below.length + 1 := by
          rw [← Array.length_toList, split, List.length_append, List.length_singleton]
        rw [size] at free
        exact absurd last free
    | ret | position | tree | bindings | count => rfl

theorem drop (chained : m.Chained) {frame : Frame} (pops : m.Pops frame) : m.drop.Chained := by
  have plain := chained.pops_choice pops
  have top := pops.top
  rw [← Array.getLast?_toList] at top
  obtain ⟨below, split⟩ := List.getLast?_eq_some_iff.mp top
  have taken : m.frames.toList.take below.length = below := by rw [split, List.take_left]
  have lowered : m.drop.frames.toList = below := by
    unfold Machine.drop
    rw [Array.toList_pop, split, List.dropLast_concat]
  have inner : m.catchIndex = lastChoice below := by
    rw [chained.innermost, split, lastChoice_concat, plain]
    rfl
  unfold Machine.Chained
  rw [lowered]
  change Packrat.Chained below m.catchIndex
  rw [inner]
  have shorter := Packrat.Chained.take chained below.length
  rwa [taken] at shorter

theorem cut (chained : m.Chained) {index : Nat} {point : ChoicePoint}
    (found : m.frames[index]? = some (.choice point)) : (m.cut index point).Chained := by
  unfold Machine.Chained Machine.cut
  rw [Array.toList_shrink]
  exact Packrat.Chained.cut chained (by rw [Array.getElem?_toList]; exact found)

theorem pushChoice (chained : m.Chained) (failure : InstId) : (m.pushChoice failure).Chained := by
  unfold Machine.Chained Machine.pushChoice
  rw [Array.toList_push]
  exact Packrat.Chained.choice chained rfl

theorem renewChoice (chained : m.Chained) {index : Nat} {point : ChoicePoint}
    (found : m.frames[index]? = some (.choice point)) : (m.renewChoice index point).Chained := by
  unfold Machine.Chained Machine.renewChoice
  rw [Array.toList_setIfInBounds]
  have found' : m.frames.toList[index]? = some (.choice point) := by
    rw [Array.getElem?_toList]
    exact found
  exact Packrat.Chained.renew chained found' rfl

theorem edit (chained : m.Chained) (edit : Edit m m') : m'.Chained := by
  cases edit with
  | keep same => exact chained.same same.toSameStack
  | push frame plain =>
      refine chained.push ?_
      cases frame with
      | ret | position | count => rfl
      | choice | tree | bindings => cases plain
  | checkpoint => exact chained.push rfl
  | enter => exact chained.push rfl
  | drop frame pops => exact chained.drop pops
  | cut index point innermost found => exact chained.cut found
  | append intent => exact chained
  | link label child => exact chained
  | emit factory mark label pops => exact chained.drop pops
  | leave mark pops => exact chained.drop pops
  | define table value => exact chained
  | mask table => exact chained

theorem edits (chained : m.Chained) (edits : Edits m m') : m'.Chained := by
  induction edits with
  | refl => exact chained
  | tail _ last ih => exact ih.edit last

theorem update (chained : m.Chained) {task : Task σ τ} {op : Op InstId}
    (update : Update task op m m') : m'.Chained := by
  rcases update.changes with edits | ⟨_, failure, same⟩ | ⟨_, index, point, found, same⟩
  · exact chained.edits edits
  · rw [same]
    exact chained.pushChoice failure
  · rw [same]
    exact chained.renewChoice found

theorem failure (chained : m.Chained) (failure : Failure m m') : m'.Chained := by
  cases failure with
  | idle => exact chained
  | resume index point caught found => exact chained.cut found

theorem step (chained : m.Chained) (task : Task σ τ) (place : InstId) :
    (reached (m.step task place)).Chained := by
  apply step_keeps _ _ chained
  · intro inst _ m₁ m₂ chained update
    exact chained.update update
  · intro m₁ m₂ chained failure
    exact chained.failure failure

theorem leave (chained : m.Chained) (reason : Halt) : (m.leave reason).Chained := by
  cases reason <;> exact chained

end Chained

/-- The chain is a true one in every state that a machine goes through. -/
theorem Execution.chained {task : Task σ τ} {options : Options} {past : List (Config σ τ)}
    {now : Config σ τ} (execution : Execution task options past now) : now.machine.Chained := by
  refine execution.keeps (fun _ m => m.Chained) ?_ ?_ ?_
  · intro nodes
    have empty : (initial task.program options nodes : Machine σ τ).Chained :=
      Packrat.Chained.nil
    exact empty.push rfl
  · intro past now _ chained
    exact chained.step task now.place
  · intro past m reason chained
    exact (chained.leave reason).push rfl

end Machine

end Packrat
