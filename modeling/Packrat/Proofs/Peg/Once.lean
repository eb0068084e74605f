/-
Outcomes of memoized rules are looked up in vain once. A table that keeps every outcome learns what
a run misses, and an evaluation that has an outcome comes back to no rule before it is through with
it; so no memo point misses one position twice, and its counter stays within the number of
positions.
-/

import Packrat.Proofs.Peg.Transparency

namespace Packrat.Peg

open Machine (steps)

variable {ρ σ τ : Type} {task : Task σ τ} {rules : ρ → Expr ρ} {layout : Layout ρ}

theorem missCount?_entering {program : Program} {options : Options} {nodes : σ} {index : Nat}
    (within : index < program.memoPoints.size) :
    (entering program options nodes : Machine σ τ).missCount? index = some 0 := by
  change ((Array.replicate program.memoPoints.size PointStats.zero)[index]?.map
    PointStats.misses) = some 0
  rw [Array.getElem?_replicate, if_pos within]
  rfl

/-- The report of a run has the counters of the memo points as the run left them. -/
theorem reported_points {fuel : Nat} {start : InstId} {options : Options} {nodes left : σ}
    {matched : Bool} {m : Machine σ τ} {outcome : Outcome τ}
    (halts : steps task fuel start (entering task.program options nodes) =
      some (.exit matched, m))
    (answers : execute task fuel start options nodes = some (.outcome outcome left)) :
    outcome.stats.points = m.stats.points := by
  unfold execute at answers
  rw [run_of_steps halts] at answers
  cases matched with
  | true | false =>
      cases answers
      rfl

/-- The misses of a run are apart, and at positions of the input. -/
theorem misses_apart {e : Expr ρ} {exit : InstId} {options : Options} {nodes : σ}
    {m : Machine σ τ} {keys : List (MemoId × Nat)}
    (course : Machine.Course task task.program.start (entering task.program options nodes) keys
      exit m)
    (tidy : Tidy layout (Calls task.input rules e 0)
      (entering task.program options nodes : Machine σ τ).memo m.memo keys)
    (strategy : options.memo = .exact) (window : options.window ≠ 0) :
    keys.Nodup ∧ ∀ key ∈ keys, key.2 ≤ task.input.size := by
  refine ⟨?_, fun key member => ?_⟩
  · -- without memo points the table keeps nothing, but then nothing is looked up
    cases keys with
    | nil => exact .nil
    | cons key keys =>
        have used := course.points key List.mem_cons_self
        have exact : (entering task.program options nodes : Machine σ τ).memo.isExact = true :=
          MemoTable.isExact_ofOptions strategy window (Nat.ne_zero_of_lt used)
        exact (tidy.learns exact).distinct
  · obtain ⟨rule, _, call⟩ := tidy.called key member
    exact call.within (Nat.zero_le _)

theorem misses_at_exit {start exit next : InstId} {m m' : Machine σ τ} {matched : Bool}
    {keys : List (MemoId × Nat)} (course : Machine.Course task start m keys exit m')
    (meets : Meets task.program exit (.control (.exit matched)) next) (fuel : Nat) :
    (Machine.misses task fuel start m).Sublist keys := by
  obtain ⟨last, next, onward, found, _⟩ := meets
  have whole := course.trans (Machine.course_of_leads onward m')
  rw [List.append_nil] at whole
  have stops : m'.step task last = .halt (.exit matched) m' := by
    rw [Machine.step_eq found]
    rfl
  have silent : Machine.miss? task.program last m' = none := by
    unfold Machine.miss?
    rw [found]
    rfl
  exact whole.misses_halt stops silent fuel

/-- Packrat evaluation under a table that keeps every outcome: a run of an expression that has an
outcome ends, no memo point misses one position twice on the way, and each memo point has missed no
more often than there are positions. -/
theorem memo_points_miss_once (finished : task.program.Finished)
    (laid : RuleCode task.program layout rules) {e : Expr ρ} {place done : InstId}
    (leads : Leads task.program task.program.start place)
    (code : ExprCode task.program layout e place done) (ends : Ends task.program done)
    {result : Option Nat} {far : Nat} (derives : Derives task.input rules e 0 result far)
    {options : Options} (strategy : options.memo = .exact) (window : options.window ≠ 0)
    (nodes : σ) :
    (∀ fuel, (Machine.misses task fuel task.program.start
      (entering task.program options nodes)).Nodup) ∧
    (∃ fuel outcome left,
      execute task fuel task.program.start options nodes = some (.outcome outcome left)) ∧
    ∀ fuel outcome left,
      execute task fuel task.program.start options nodes = some (.outcome outcome left) →
      ∀ index, index < task.program.memoPoints.size →
        ∃ stats, outcome.stats.points[index]? = some stats ∧
          stats.misses ≤ task.input.size + 1 := by
  obtain ⟨exit, next, m, ⟨keys, course, tidy⟩, meets, _⟩ :=
    comes_to_exit finished laid leads code ends derives options nodes
  obtain ⟨distinct, within⟩ := misses_apart course tidy strategy window
  have missed (fuel : Nat) : (Machine.misses task fuel task.program.start
      (entering task.program options nodes)).Sublist keys := misses_at_exit course meets fuel
  obtain ⟨fuel, halts⟩ := halts_at_exit course.reaches meets
  obtain ⟨outcome, left, answers, _⟩ := execute_of_steps halts
  refine ⟨fun fuel => distinct.sublist (missed fuel), ⟨fuel, outcome, left, answers⟩, ?_⟩
  intro fuel outcome left answers index known
  obtain ⟨matched, m', halts⟩ := steps_of_execute answers
  have counted := Machine.steps_counts halts index
  rw [missCount?_entering known, Option.map_some, Nat.zero_add] at counted
  obtain ⟨stats, found, same⟩ := Option.map_eq_some_iff.mp counted
  refine ⟨stats, ?_, ?_⟩
  · rw [reported_points halts answers]
    exact found
  · rw [same]
    exact Machine.missesOf_le (distinct.sublist (missed fuel))
      (fun key member => within key ((missed fuel).subset member)) index

/-- Two alternatives look up one rule at one position: the first one in vain, the second one not. -/
theorem memo_points_miss_once_shared :
    let task : Task Unit Tree := ⟨sharedProgram, .ofBytes #[0x61, 0x63], Tree.factory⟩
    let options : Options := { Options.initial with memo := .exact }
    (∀ fuel, (Machine.misses task fuel ⟨4⟩ (entering sharedProgram options ())).Nodup) ∧
    (∃ fuel outcome left, execute task fuel ⟨4⟩ options () = some (.outcome outcome left)) ∧
    ∀ fuel outcome left, execute task fuel ⟨4⟩ options () = some (.outcome outcome left) →
      ∀ index, index < sharedProgram.memoPoints.size →
        ∃ stats, outcome.stats.points[index]? = some stats ∧ stats.misses ≤ 3 := by
  intro task options
  have laid : RuleCode task.program sharedLayout sharedRules := sharedProgram_laid
  have window : options.window ≠ 0 := by decide
  exact memo_points_miss_once sharedProgram_finished laid (.here _) sharedProgram_code
    sharedProgram_ends shared_derives rfl window ()

end Packrat.Peg
