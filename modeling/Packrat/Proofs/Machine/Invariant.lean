/-
What a step keeps. A step is updates and perhaps a failure, so a property of the state that every
update and every failure keeps is kept by every step; of the failures only the one that resumes at the
innermost choice point changes more than the statistics.
-/

import Packrat.Proofs.Machine.Execution
import Packrat.Proofs.Machine.Update

namespace Packrat.Machine

variable {σ τ : Type} {task : Task σ τ}

inductive Failure (m : Machine σ τ) : Machine σ τ → Prop
  | idle : Failure m { m with stats := m.stats.backtrack m.pos m.pos m.head }
  | resume (index : Nat) (point : ChoicePoint) (caught : m.catchIndex = some index)
      (found : m.frames[index]? = some (.choice point)) : Failure m (m.resume index point)

/-- The machine fails, or it is stopped as it is because its stack is broken. -/
theorem fail_cases (m : Machine σ τ) (place : InstId) :
    Failure m (reached (m.fail place)) ∨ reached (m.fail place) = m := by
  cases caught : m.catchIndex with
  | none =>
      have idle : m.fail place =
          .goto .exitFail { m with stats := m.stats.backtrack m.pos m.pos m.head } := by
        simp only [Machine.fail, caught]
      rw [idle]
      exact .inl .idle
  | some index =>
      simp only [Machine.fail, caught]
      cases innermost : m.innermost ⟨place, .control .fail⟩ with
      | error cause => exact .inr rfl
      | ok answer =>
          obtain ⟨caught', found⟩ := innermost_ok innermost
          exact .inl (.resume answer.1 answer.2 caught' found)

section Kept

variable {P : Machine σ τ → Prop} {place : InstId} {inst : Inst InstId} {m m' : Machine σ τ}

theorem updates_keep (update : ∀ m m', P m → Update task inst.op m m' → P m')
    (updates : Updates task inst.op m m') (holds : P m) : P m' := by
  induction updates with
  | refl => exact holds
  | tail _ last ih => exact update _ _ ih last

theorem fail_keeps (failure : ∀ m m', P m → Failure m m' → P m') (holds : P m) :
    P (reached (m.fail place)) := by
  rcases fail_cases m place with failed | same
  · exact failure _ _ holds failed
  · rw [same]
    exact holds

theorem step_keeps
    (update : ∀ inst, task.program.inst? place = some inst →
      ∀ m m', P m → Update task inst.op m m' → P m')
    (failure : ∀ m m', P m → Failure m m' → P m') (holds : P m) :
    P (reached (m.step task place)) := by
  cases found : task.program.inst? place with
  | none =>
      simp only [Machine.step, found]
      exact holds
  | some inst =>
      rw [step_eq found]
      have kept := updates_keep (update inst found) (exec_leaves task place inst m).updates holds
      cases effect : m.exec task place inst with
      | goto target m' => rw [effect] at kept; exact kept
      | halt reason m' => rw [effect] at kept; exact kept
      | fail m' => rw [effect] at kept; exact fail_keeps failure kept

end Kept

/-! ### Executions -/

variable {options : Options} {past earlier later : List (Config σ τ)} {now config : Config σ τ}

/-- What a new machine has, what every step keeps, and what starting a run again keeps, holds at all
times. It may be about what lies behind, too. -/
theorem Execution.keeps (execution : Execution task options past now)
    (P : List (Config σ τ) → Machine σ τ → Prop)
    (enter : ∀ nodes, P [] ((initial task.program options nodes).push (.ret .exitOk)))
    (step : ∀ past now, Execution task options past now → P past now.machine →
      P (now :: past) (reached (now.machine.step task now.place)))
    (again : ∀ past m reason, P past m → P past ((m.leave reason).push (.ret .exitOk))) :
    P past now.machine := by
  induction execution with
  | enter start nodes => exact enter nodes
  | @step past now target m before taken ih =>
      have stepped := step past now before ih
      rw [taken] at stepped
      exact stepped
  | @again past now reason m before halts sound start ih =>
      have stepped := step past now before ih
      rw [halts] at stepped
      exact again (now :: past) m reason stepped

theorem Execution.tail (execution : Execution task options (config :: past) now) :
    Execution task options past config := by
  cases execution with
  | step before step => exact before
  | again before halts sound start => exact before

/-- What lies behind any state of an execution is an execution. -/
theorem Execution.before (execution : Execution task options past now)
    (split : past = later ++ config :: earlier) : Execution task options earlier config := by
  induction later generalizing past now with
  | nil =>
      subst split
      exact execution.tail
  | cons last rest ih =>
      subst split
      exact ih execution.tail rfl

end Packrat.Machine
