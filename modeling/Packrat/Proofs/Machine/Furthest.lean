/-
The furthest position. The position that the cursor leaves is written down only where the cursor is
set back, so that the record together with the cursor bounds every position that the cursor has had.
All other instructions leave the record alone and at most move the cursor forward, and one that fails
has not moved it.
-/

import Mathlib.Order.Bounds.Basic
import Packrat.Proofs.Machine.Invariant
import Packrat.Proofs.Machine.Progress

namespace Packrat

/-- A syntax error lies at the furthest position if nothing matched. -/
theorem Outcome.position_of_noMatch {τ : Type} {outcome : Outcome τ} {input : Input}
    {error : SyntaxError} (failed : outcome.result input = .error error) (kind : error.kind = .noMatch) :
    error.position = outcome.maxPosition := by
  unfold Outcome.result at failed
  split at failed
  · cases failed
    cases kind
  · split at failed
    · cases failed
    · cases failed
      rfl

namespace Machine

variable {σ τ : Type} {task : Task σ τ} {options : Options} {past : List (Config σ τ)}
  {now : Config σ τ} {m m' : Machine σ τ}

/-! ### One step -/

/-- The cursor is not set back, and no position is written down. -/
structure Climbs (m m' : Machine σ τ) : Prop where
  head : m'.head = m.head
  pos : m.pos ≤ m'.pos

theorem Climbs.trans {m₁ m₂ m₃ : Machine σ τ} (first : Climbs m₁ m₂) (second : Climbs m₂ m₃) :
    Climbs m₁ m₃ :=
  ⟨second.head.trans first.head, Nat.le_trans first.pos second.pos⟩

theorem Climbs.still (head : m'.head = m.head) (pos : m'.pos = m.pos) : Climbs m m' :=
  ⟨head, Nat.le_of_eq pos.symm⟩

theorem Update.climbs {op : Op InstId} (update : Update task op m m')
    (returns : op ≠ .control .back) (moves : op.moves = false) : Climbs m m' := by
  cases update with
  | back pos pops same => exact absurd same returns
  | shift amount pos same moved =>
      rw [same] at moves
      cases moves
  | consume length within => exact ⟨rfl, Nat.le_add_right m.pos length⟩
  | skip id state entry found matched => exact ⟨rfl, Nat.le_add_right m.pos entry.consumed⟩
  | save | call | drop | count | alt | renew | cut | append | link | checkpoint | emit | enter | leave
  | define | mask | look | tick | store | storeFailure => exact .still rfl rfl

theorem Updates.climbs {op : Op InstId} (updates : Updates task op m m')
    (returns : op ≠ .control .back) (moves : op.moves = false) : Climbs m m' := by
  induction updates with
  | refl => exact .still rfl rfl
  | tail _ last ih => exact ih.trans (last.climbs returns moves)

def Advances (m m' : Machine σ τ) : Prop := m'.maxPosition = max m.maxPosition m'.pos

theorem Climbs.advances (climbs : Climbs m m') : Advances m m' := by
  obtain ⟨head, pos⟩ := climbs
  unfold Advances maxPosition
  omega

theorem rollback_advances (m : Machine σ τ) (pos : Nat) : Advances m (m.rollback pos) := rfl

theorem Failure.advances (failure : Failure m m') : Advances m m' := by
  cases failure with
  | idle => exact (Climbs.still rfl rfl).advances
  | resume index point caught found => rfl

theorem fail_advances {m₁ : Machine σ τ} (climbs : Climbs m m₁) (still : m₁.pos = m.pos)
    (place : InstId) : Advances m (reached (m₁.fail place)) := by
  have same : m₁.maxPosition = m.maxPosition := by
    unfold maxPosition
    rw [climbs.head, still]
  rcases fail_cases m₁ place with failure | stopped
  · have advanced := failure.advances
    unfold Advances at advanced ⊢
    rw [advanced, same]
  · rw [stopped]
    exact climbs.advances

theorem back_advances (site : Site) (place next : InstId) (m : Machine σ τ) :
    Advances m (reached (settle place (m.control site next .back))) := by
  simp only [control, popPosition]
  rcases popAs_cases Frame.position? .position m site with
    ⟨frame, pos, pops, reads, popped⟩ | ⟨frame, fault, pops, popped⟩ | ⟨fault, popped⟩
  · rw [popped]
    exact rollback_advances m pos
  · rw [popped]
    exact (Climbs.still rfl rfl).advances
  · rw [popped]
    exact (Climbs.still rfl rfl).advances

theorem move_advances (site : Site) (place next : InstId) (shift : Int) (m : Machine σ τ) :
    Advances m (reached (settle place (m.control site next (.move shift)))) := by
  simp only [control]
  cases shiftedFrom m.pos shift with
  | none => exact (Climbs.still rfl rfl).advances
  | some pos => exact rollback_advances m pos

theorem step_advances (place : InstId) (m : Machine σ τ) :
    Advances m (reached (m.step task place)) := by
  cases found : task.program.inst? place with
  | none =>
      simp only [Machine.step, found]
      exact (Climbs.still rfl rfl).advances
  | some inst =>
      rw [step_eq found]
      obtain ⟨op, next⟩ := inst
      -- Only these two set the cursor, and they do it last, so no other update can come behind it.
      by_cases returns : op = .control .back
      · rw [returns]
        exact back_advances _ place next m
      by_cases moves : ∃ shift, op = .control (.move shift)
      · obtain ⟨shift, rfl⟩ := moves
        exact move_advances _ place next shift m
      · have still : op.moves = false := by
          unfold Op.moves
          split
          · next shift => exact absurd ⟨shift, rfl⟩ moves
          · rfl
        have leaves := exec_leaves task place ⟨op, next⟩ m
        have climbs := leaves.updates.climbs returns still
        cases effect : m.exec task place ⟨op, next⟩ with
        | goto target m₁ => rw [effect] at climbs; exact climbs.advances
        | halt reason m₁ => rw [effect] at climbs; exact climbs.advances
        | fail m₁ =>
            -- A cursor that had moved on before the failure would be written down unseen.
            rw [effect] at climbs leaves
            cases leaves with
            | fail updates still => exact fail_advances climbs still place

/-! ### All that a machine went through -/

def visited (past : List (Config σ τ)) (m : Machine σ τ) : Set Nat :=
  {pos | pos = m.pos ∨ ∃ config ∈ past, pos = config.machine.pos}

theorem Advances.furthest (advances : Advances now.machine m)
    (furthest : IsGreatest (visited past now.machine) now.machine.maxPosition) :
    IsGreatest (visited (now :: past) m) m.maxPosition := by
  obtain ⟨attained, bound⟩ := furthest
  unfold Advances at advances
  constructor
  · rcases Nat.le_total now.machine.maxPosition m.pos with ahead | behind
    · exact .inl (by omega)
    · have same : m.maxPosition = now.machine.maxPosition := by omega
      rw [same]
      rcases attained with here | ⟨config, member, there⟩
      · exact .inr ⟨now, List.mem_cons_self, here⟩
      · exact .inr ⟨config, List.mem_cons_of_mem now member, there⟩
  · intro pos passed
    have within : pos = m.pos ∨ pos ≤ now.machine.maxPosition := by
      rcases passed with here | ⟨config, member, there⟩
      · exact .inl here
      · rcases List.mem_cons.mp member with rfl | member
        · exact .inr (bound (.inl there))
        · exact .inr (bound (.inr ⟨config, member, there⟩))
    omega

theorem Execution.furthest (execution : Execution task options past now) :
    IsGreatest (visited past now.machine) now.machine.maxPosition := by
  refine execution.keeps (fun past m => IsGreatest (visited past m) m.maxPosition) ?_ ?_ ?_
  · intro nodes
    constructor
    · exact .inl rfl
    · rintro pos (here | ⟨config, member, there⟩)
      · exact Nat.le_of_eq here
      · cases member
  · intro past now _ furthest
    exact (step_advances now.place now.machine).furthest furthest
  · intro past m reason furthest
    cases reason <;> exact furthest

/-- The furthest position is the greatest one that the cursor has had at any instruction since the
machine was made, over any number of runs, also right after the instruction that halts a run. So it is
what the report of a run gives, and where a syntax error lies if nothing matched. -/
theorem furthest_position_is_greatest (execution : Execution task options past now) :
    IsGreatest (visited past now.machine) now.machine.maxPosition ∧
    ∀ reason m, now.machine.step task now.place = .halt reason m →
      IsGreatest (visited (now :: past) m) m.maxPosition ∧
      ∀ matched, reason = .exit matched →
        let report := ((m.leave reason).outcome task options matched).1
        IsGreatest (visited (now :: past) m) report.maxPosition ∧
        (matched = false → ∃ error, report.result task.input = .error error ∧ error.kind = .noMatch) ∧
        ∀ error, report.result task.input = .error error → error.kind = .noMatch →
          IsGreatest (visited (now :: past) m) error.position := by
  have furthest := execution.furthest
  refine ⟨furthest, fun reason m halts => ?_⟩
  have advances : Advances now.machine (reached (now.machine.step task now.place)) :=
    step_advances now.place now.machine
  rw [halts] at advances
  have halted : IsGreatest (visited (now :: past) m) m.maxPosition := advances.furthest furthest
  refine ⟨halted, ?_⟩
  rintro matched rfl report
  have same : report.maxPosition = m.maxPosition := by
    cases matched <;> rfl
  refine ⟨by rw [same]; exact halted, ?_, ?_⟩
  · rintro rfl
    refine ⟨.located .noMatch m.maxPosition task.input, ?_, rfl⟩
    have spared : (report.rejectUnconsumed && report.hasUnconsumed task.input.size) = false :=
      Bool.and_false _
    unfold Outcome.result
    rw [spared]
    rfl
  · intro error failed kind
    rw [Outcome.position_of_noMatch failed kind, same]
    exact halted

/-- Code that goes two bytes ahead and back again, and gives up. -/
def lookBeyond : Program where
  insts := #[⟨.control (.exit false), .exitFail⟩, ⟨.control (.exit true), .exitOk⟩,
    ⟨.control .pos, ⟨3⟩⟩, ⟨.control (.move 2), ⟨4⟩⟩, ⟨.control .back, .exitFail⟩]
  sets := .empty
  literals := .empty
  dispatch := #[]
  memoPoints := #[]
  symbols := .initial
  start := ⟨2⟩

/-- The run ends at the start of the input, and the syntax error lies where it went. -/
theorem furthest_position_is_greatest_beyond :
    let task : Task Unit Tree := ⟨lookBeyond, .ofBytes #[0x61, 0x0a, 0x61], Tree.factory⟩
    ∃ past now m error, Execution task .initial past now ∧
      now.machine.step task now.place = .halt (.exit false) m ∧ m.pos = 0 ∧
      ((m.leave (.exit false)).outcome task .initial false).1.result task.input = .error error ∧
      error.kind = .noMatch ∧ error.position = 2 ∧
      IsGreatest (visited (now :: past) m) error.position := by
  intro task
  let start : Machine Unit Tree := (initial lookBeyond .initial ()).push (.ret .exitOk)
  let saved := start.push (.position 0)
  have pushed : Execution task .initial _ ⟨⟨3⟩, saved⟩ := .step (.enter ⟨2⟩ ()) rfl
  have ahead : saved.step task ⟨3⟩ = .goto ⟨4⟩ (saved.rollback 2) := by
    have shifted : shiftedFrom saved.pos 2 = some 2 := by decide
    have found : task.program.inst? ⟨3⟩ = some ⟨.control (.move 2), ⟨4⟩⟩ := rfl
    rw [step_eq found]
    simp only [exec, control, shifted, settle]
  have moved : Execution task .initial _ ⟨⟨4⟩, saved.rollback 2⟩ := .step pushed ahead
  have back : Execution task .initial _ ⟨.exitFail, (saved.rollback 2).drop.rollback 0⟩ :=
    .step moved rfl
  have halts : ((saved.rollback 2).drop.rollback 0).step task .exitFail =
      .halt (.exit false) ((saved.rollback 2).drop.rollback 0) := rfl
  obtain ⟨_, halting⟩ := furthest_position_is_greatest back
  obtain ⟨_, exits⟩ := halting _ _ halts
  obtain ⟨_, fails, lies⟩ := exits false rfl
  obtain ⟨error, failed, kind⟩ := fails rfl
  have located := Outcome.position_of_noMatch failed kind
  exact ⟨_, _, _, error, back, halts, rfl, failed, kind, located, lies error failed kind⟩

end Machine

end Packrat
