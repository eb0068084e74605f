/-
Runs as paths of single steps. `Reaches` joins two states of one run, `Execution` keeps all that a
machine went through since it was made, over any number of runs, also after a fault. A run that
halts is a path to the instruction where it halts.

Nothing here depends on what the instructions do.
-/

import Packrat.Parser

namespace Packrat.Machine

variable {σ τ : Type} {task : Task σ τ}

theorem step_eq {place : InstId} {inst : Inst InstId}
    (found : task.program.inst? place = some inst) (m : Machine σ τ) :
    m.step task place = settle place (m.exec task place inst) := by
  unfold Machine.step
  rw [found]

/-! ### Paths -/

/-- A run that stands before one instruction comes to stand before another one. -/
inductive Reaches (task : Task σ τ) :
    (place : InstId) → (m : Machine σ τ) → (target : InstId) → (m' : Machine σ τ) → Prop
  | refl (place : InstId) (m : Machine σ τ) : Reaches task place m place m
  | head {place next target : InstId} {m m₁ m' : Machine σ τ}
      (first : m.step task place = .goto next m₁) (rest : Reaches task next m₁ target m') :
      Reaches task place m target m'

theorem Reaches.single {place target : InstId} {m m' : Machine σ τ}
    (step : m.step task place = .goto target m') : Reaches task place m target m' :=
  .head step (.refl target m')

theorem Reaches.trans {place middle target : InstId} {m m₁ m' : Machine σ τ}
    (first : Reaches task place m middle m₁) (rest : Reaches task middle m₁ target m') :
    Reaches task place m target m' := by
  induction first with
  | refl => exact rest
  | head step _ ih => exact .head step (ih rest)

/-- Running on from the end of a path gives what running from its start gives. -/
theorem Reaches.steps_eq {place target : InstId} {m m' : Machine σ τ}
    (path : Reaches task place m target m') :
    ∃ count, ∀ fuel, steps task (count + fuel) place m = steps task fuel target m' := by
  induction path with
  | refl => exact ⟨0, fun fuel => by rw [Nat.zero_add]⟩
  | head step _ ih =>
      obtain ⟨count, same⟩ := ih
      refine ⟨count + 1, fun fuel => ?_⟩
      rw [Nat.add_right_comm, steps, step]
      exact same fuel

theorem Reaches.steps_halt {place target : InstId} {m m₁ m' : Machine σ τ} {reason : Halt}
    (path : Reaches task place m target m₁) (halts : m₁.step task target = .halt reason m') :
    ∃ fuel, steps task fuel place m = some (reason, m') := by
  obtain ⟨count, same⟩ := path.steps_eq
  refine ⟨count + 1, ?_⟩
  rw [same 1, steps, halts]

theorem steps_mono {fuel : Nat} {place : InstId} {m : Machine σ τ}
    {answer : Halt × Machine σ τ} (halts : steps task fuel place m = some answer) (more : Nat) :
    steps task (fuel + more) place m = some answer := by
  induction fuel generalizing place m with
  | zero => cases halts
  | succ fuel ih =>
      rw [Nat.add_right_comm]
      rw [steps] at halts ⊢
      cases step : m.step task place with
      | halt reason m' => rw [step] at halts; exact halts
      | goto target m' => rw [step] at halts; exact ih halts

theorem steps_unique {fuel fuel' : Nat} {place : InstId} {m : Machine σ τ}
    {answer answer' : Halt × Machine σ τ} (first : steps task fuel place m = some answer)
    (second : steps task fuel' place m = some answer') : answer = answer' := by
  have longer := steps_mono first fuel'
  have longer' := steps_mono second fuel
  rw [Nat.add_comm fuel' fuel, longer] at longer'
  exact Option.some.inj longer'

/-- A run that halts still halts when it is taken up on the way, with no more fuel. -/
theorem Reaches.steps_rest {place target : InstId} {m m' : Machine σ τ} {fuel : Nat}
    {answer : Halt × Machine σ τ} (path : Reaches task place m target m')
    (halts : steps task fuel place m = some answer) :
    ∃ rest, rest ≤ fuel ∧ steps task rest target m' = some answer := by
  induction path generalizing fuel with
  | refl => exact ⟨fuel, Nat.le_refl fuel, halts⟩
  | head step _ ih =>
      cases fuel with
      | zero => cases halts
      | succ fuel =>
          rw [steps, step] at halts
          obtain ⟨rest, bound, answered⟩ := ih halts
          exact ⟨rest, Nat.le_succ_of_le bound, answered⟩

/-! ### Executions -/

def leave (m : Machine σ τ) : Halt → Machine σ τ
  | .exit _ => m.tally
  | _ => m

theorem run_eq_leave (task : Task σ τ) (fuel : Nat) (start : InstId) (m : Machine σ τ) :
    m.run task fuel start =
      (steps task fuel start (m.push (.ret .exitOk))).map
        fun answer => (answer.1, answer.2.leave answer.1) := by
  unfold run
  cases steps task fuel start (m.push (.ret .exitOk)) with
  | none => rfl
  | some answer => obtain ⟨reason, m'⟩ := answer; cases reason <;> rfl

structure Config (σ τ : Type) where
  place : InstId
  machine : Machine σ τ

/-- What a machine can go through: the states that lie behind it, the latest first, and the present
one. It may be run any number of times, from any instruction, and after a fault too. -/
inductive Execution (task : Task σ τ) (options : Options) :
    (past : List (Config σ τ)) → (now : Config σ τ) → Prop
  | enter (start : InstId) (nodes : σ) :
      Execution task options []
        ⟨start, (initial task.program options nodes).push (.ret .exitOk)⟩
  | step {past : List (Config σ τ)} {now : Config σ τ} {target : InstId} {m : Machine σ τ}
      (before : Execution task options past now)
      (step : now.machine.step task now.place = .goto target m) :
      Execution task options (now :: past) ⟨target, m⟩
  | again {past : List (Config σ τ)} {now : Config σ τ} {reason : Halt} {m : Machine σ τ}
      (before : Execution task options past now)
      (halts : now.machine.step task now.place = .halt reason m) (sound : reason ≠ .trap)
      (start : InstId) :
      Execution task options (now :: past) ⟨start, (m.leave reason).push (.ret .exitOk)⟩

end Packrat.Machine
