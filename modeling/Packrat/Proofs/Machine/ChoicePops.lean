/-
Ordinary pops. They take whatever frame is on top, and only ask whether it is the innermost choice
point; as the innermost one is the topmost one, no choice point is ever taken away by them.
-/

import Packrat.Proofs.Machine.ChoiceChain

namespace Packrat

def Op.popsTop {t : Type} : Op t → Bool
  | .control .back => true
  | .control .ret => true
  | .tree (.emit _) => true
  | .bindings .leave => true
  | .bindings (.define _) => true
  | .bindings (.isLatest _) => true
  | .bindings (.isVisible _) => true
  | .count _ => true
  | _ => false

namespace Machine

variable {σ τ : Type} {m m₁ m' : Machine σ τ}

structure KeepsChoices (m m' : Machine σ τ) : Prop where
  catchIndex : m'.catchIndex = m.catchIndex
  found : ∀ (index : Nat) (point : ChoicePoint), m.frames[index]? = some (.choice point) →
    m'.frames[index]? = some (.choice point)

namespace KeepsChoices

theorem of_same (same : SameStack m m') : KeepsChoices m m' :=
  ⟨same.catchIndex, fun index point found => by rw [same.frames]; exact found⟩

theorem trans (first : KeepsChoices m m₁) (second : KeepsChoices m₁ m') : KeepsChoices m m' :=
  ⟨second.catchIndex.trans first.catchIndex,
    fun index point found => second.found index point (first.found index point found)⟩

theorem push (m : Machine σ τ) (frame : Frame) : KeepsChoices m (m.push frame) := by
  refine ⟨rfl, fun index point found => ?_⟩
  have within := (Array.getElem?_eq_some_iff.mp found).1
  rw [← found]
  exact (Array.getElem?_push_lt within).trans (Array.getElem?_eq_getElem within).symm

/-- The frame that is popped is no choice point, so the choice points lie below it. -/
theorem drop (chained : m.Chained) {frame : Frame} (pops : m.Pops frame) :
    KeepsChoices m m.drop := by
  refine ⟨rfl, fun index point found => ?_⟩
  have within := (Array.getElem?_eq_some_iff.mp found).1
  have below : index < m.frames.size - 1 := by
    rcases Nat.lt_or_ge index (m.frames.size - 1) with below | above
    · exact below
    · have top := pops.top
      have same : index = m.frames.size - 1 := by omega
      rw [Array.back?_eq_getElem?, ← same, found, Option.some.injEq] at top
      have plain := chained.pops_choice pops
      rw [← top] at plain
      cases plain
  unfold Machine.drop
  rw [Array.getElem?_pop, if_pos below]
  exact found

end KeepsChoices

section Popped

variable {α : Type} {read : Frame → Option α} {expected : FrameKind} {site : Site}

theorem popAs_ok_keeps (chained : m.Chained) {answer : α × Machine σ τ}
    (popped : m.popAs read expected site = .ok answer) : KeepsChoices m answer.2 := by
  obtain ⟨frame, pops, _, same⟩ := popAs_ok popped
  rw [same]
  exact .drop chained pops

/-- A frame of another kind than expected is popped all the same, and it is no choice point either.
-/
theorem popAs_error_keeps (chained : m.Chained) {answer : Fault × Machine σ τ}
    (popped : m.popAs read expected site = .error answer) : KeepsChoices m answer.2 := by
  rcases popAs_cases read expected m site with
    ⟨frame, content, pops, _, same⟩ | ⟨frame, fault, pops, same⟩ | ⟨fault, same⟩
  · rw [popped] at same
    cases same
  · rw [popped] at same
    cases same
    exact .drop chained pops
  · rw [popped] at same
    cases same
    exact .of_same ⟨rfl, rfl⟩

end Popped

theorem require_after (condition : Bool) (next : InstId) (m : Machine σ τ) :
    after (m.require condition next) = m := by
  cases condition <;> rfl

theorem requireCaptured_keeps (chained : m.Chained) (input : Input) (site : Site) (next : InstId)
    (condition : Bindings → Bytes → Bool) :
    KeepsChoices m (after (m.requireCaptured input site next condition)) := by
  simp only [requireCaptured, popPosition]
  cases popped : m.popAs Frame.position? .position site with
  | error answer => exact popAs_error_keeps chained popped
  | ok answer =>
      dsimp only
      rw [require_after]
      exact popAs_ok_keeps chained popped

theorem countStep_keeps (chained : m.Chained) (input : Input) (site : Site) (next : InstId)
    (op : CountOp InstId) : KeepsChoices m (after (m.countStep input site next op)) := by
  cases op with
  | scan mask shift =>
      simp only [countStep, popPosition]
      cases popped : m.popAs Frame.position? .position site with
      | error answer => exact popAs_error_keeps chained popped
      | ok answer => exact (popAs_ok_keeps chained popped).trans (.push _ _)
  | dec done =>
      have still : KeepsChoices m m := .of_same ⟨rfl, rfl⟩
      simp only [countStep]
      cases back : m.frames.back? with
      | none => exact still
      | some frame =>
          cases frame with
          | count left =>
              have dropped : KeepsChoices m m.drop := .drop chained ⟨back, .inl rfl⟩
              by_cases spent : left = 0
              · simp only [spent, if_true]
                exact dropped
              · simp only [spent, if_false]
                exact dropped.trans (.push _ _)
          | choice | ret | position | tree | bindings => exact still

/-- An ordinary pop never takes a choice point away, whether it succeeds or not. -/
theorem exec_keeps_choices (chained : m.Chained) (task : Task σ τ) (place : InstId)
    {inst : Inst InstId} (pops : inst.op.popsTop = true) :
    KeepsChoices m (after (m.exec task place inst)) := by
  obtain ⟨op, next⟩ := inst
  cases op with
  | control op =>
      cases op with
      | back =>
          simp only [exec, control, popPosition]
          cases popped : m.popAs Frame.position? .position ⟨place, .control .back⟩ with
          | error answer => exact popAs_error_keeps chained popped
          | ok answer => exact (popAs_ok_keeps chained popped).trans (.of_same ⟨rfl, rfl⟩)
      | ret =>
          simp only [exec, control]
          cases popped : m.popAs Frame.ret? .ret ⟨place, .control .ret⟩ with
          | error answer => exact popAs_error_keeps chained popped
          | ok answer => exact popAs_ok_keeps chained popped
      | nop | exit | pos | move | jump | call | alt | succ | fail | guard | step => cases pops
  | tree op =>
      cases op with
      | emit label =>
          simp only [exec, treeStep]
          cases popped : m.popAs Frame.tree? .tree ⟨place, .tree (.emit label)⟩ with
          | error answer => exact popAs_error_keeps chained popped
          | ok answer => exact (popAs_ok_keeps chained popped).trans (.of_same ⟨rfl, rfl⟩)
      | node | close | tag | replace | fold | push | pop | checkpoint => cases pops
  | bindings op =>
      cases op with
      | leave =>
          simp only [exec, bindingStep]
          cases popped : m.popAs Frame.bindings? .bindings ⟨place, .bindings .leave⟩ with
          | error answer => exact popAs_error_keeps chained popped
          | ok answer => exact (popAs_ok_keeps chained popped).trans (.of_same ⟨rfl, rfl⟩)
      | define table =>
          simp only [exec, bindingStep, popPosition]
          cases popped : m.popAs Frame.position? .position ⟨place, .bindings (.define table)⟩ with
          | error answer => exact popAs_error_keeps chained popped
          | ok answer => exact (popAs_ok_keeps chained popped).trans (.of_same ⟨rfl, rfl⟩)
      | isLatest table =>
          exact requireCaptured_keeps chained task.input _ next fun bindings bytes =>
            bindings.isLatest table bytes
      | isVisible table =>
          exact requireCaptured_keeps chained task.input _ next fun bindings bytes =>
            bindings.contains table bytes
      | enter | mask | bound | holds | consume => cases pops
  | count op => exact countStep_keeps chained task.input _ next op
  | test | dispatch | memo => cases pops

end Machine

end Packrat
