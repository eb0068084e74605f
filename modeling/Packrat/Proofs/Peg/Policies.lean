/-
Tests under a policy. One instruction does what an option, a repetition or a negative lookahead of a
test does in code that is spelled out. The spelled form pushes a choice point of its own and gives it
up again, so both leave the same state, apart from the furthest position written down and the
statistics. Only where a negative lookahead fails and no choice point is left does nothing take the
cursor back over what the spelled form has matched.
-/

import Packrat.Proofs.Code.Validity
import Packrat.Proofs.Peg.Code

namespace Packrat

/-! ### Policies -/

namespace Policy

def expr {ρ : Type} (pattern : Pattern ByteSet Bytes) : Policy → Peg.Expr ρ
  | .once => .test pattern
  | .absent => .absent (.test pattern)
  | .optional => .option (.test pattern)
  | .many => .star (.test pattern)

def refuses (input : Input) (pattern : Pattern ByteSet Bytes) (pos : Nat) : Policy → Bool
  | .once => (pattern.length? input pos).isNone
  | .absent => (pattern.length? input pos).isSome
  | .optional | .many => false

def stop (input : Input) (pattern : Pattern ByteSet Bytes) (pos : Nat) : Policy → Nat
  | .once | .optional => pos + (pattern.length? input pos).getD 0
  | .absent => pos
  | .many => pattern.skipAll input pos

end Policy

namespace Machine

variable {σ τ : Type} {task : Task σ τ} {place target k failure : InstId} {op : Op InstId}
  {m m₁ m₂ : Machine σ τ}

def standing (m : Machine σ τ) (pos : Nat) : Machine σ τ := { m with pos := pos }

/-- Two states that differ in no more than the furthest position written down and the statistics. -/
structure Coincides (m m' : Machine σ τ) : Prop extends SameUndo m m' where
  pos : m'.pos = m.pos
  memo : m'.memo = m.memo
  nodes : m'.nodes = m.nodes

theorem Coincides.refl (m : Machine σ τ) : Coincides m m := ⟨.refl m, rfl, rfl, rfl⟩

/-! ### The short form -/

section Short

variable {input : Input} {pattern : Pattern ByteSet Bytes} {policy : Policy}

theorem test_passes (passes : policy.refuses input pattern m.pos = false) (next : InstId) :
    m.test input next pattern policy = .goto next (m.standing (policy.stop input pattern m.pos)) := by
  cases policy with
  | many => rfl
  | once =>
      cases found : pattern.length? input m.pos with
      | none =>
          rw [Policy.refuses, found] at passes
          cases passes
      | some length =>
          simp only [test, found, Policy.stop, Option.getD_some]
          rfl
  | absent =>
      cases found : pattern.length? input m.pos with
      | none =>
          simp only [test, found]
          rfl
      | some length =>
          rw [Policy.refuses, found] at passes
          cases passes
  | optional =>
      cases found : pattern.length? input m.pos with
      | none =>
          simp only [test, found, Policy.stop, Option.getD_none]
          rfl
      | some length =>
          simp only [test, found, Policy.stop, Option.getD_some]
          rfl

theorem test_refuses (refuses : policy.refuses input pattern m.pos = true) (next : InstId) :
    m.test input next pattern policy = .fail m := by
  cases policy with
  | optional | many => cases refuses
  | once =>
      have missing : pattern.length? input m.pos = none := Option.isNone_iff_eq_none.mp refuses
      simp only [test, missing]
  | absent =>
      obtain ⟨length, found⟩ := Option.isSome_iff_exists.mp refuses
      simp only [test, found]

end Short

theorem exec_test {operand : Pattern SetId LitId} {pattern : Pattern ByteSet Bytes}
    (found : task.program.pattern? operand = some pattern) (policy : Policy) (m : Machine σ τ)
    (place next : InstId) :
    m.exec task place ⟨.test operand policy, next⟩ = m.test task.input next pattern policy := by
  simp only [exec, found]

/-! ### Failing -/

theorem reaches_failing (meets : Meets task.program place op k)
    (fails : ∀ place next, m.exec task place ⟨op, next⟩ = .fail m₁)
    (goes : ∀ place, m₁.fail place = .goto target m₂) : Reaches task place m target m₂ := by
  obtain ⟨stop, next, leads, found, _⟩ := meets
  refine (reaches_of_leads leads m).trans (.single ?_)
  rw [step_eq found, fails, settle, goes]

/-- A failure under a choice point that was pushed in a state with the same log, bindings and memo
table comes back to that state. -/
theorem fail_returns (under : SameUndo (m.pushChoice failure) m₁) (memo : m₁.memo = m.memo)
    (nodes : m₁.nodes = m.nodes) :
    ∃ m₂, (∀ place, m₁.fail place = .goto failure m₂) ∧ Coincides m m₂ := by
  let point : ChoicePoint := ⟨failure, m.pos, m.log.mark, m.bindings.save, m.catchIndex⟩
  have caught : m₁.catchIndex = some m.frames.size := under.catchIndex
  have frames : m₁.frames = m.frames.push (.choice point) := under.frames
  have found : m₁.frames[m.frames.size]? = some (.choice point) := by
    rw [frames]
    exact Array.getElem?_push_size
  refine ⟨m₁.resume m.frames.size point, fun place => ?_, ⟨⟨?_, rfl⟩, ?_, ?_⟩, rfl, memo, nodes⟩
  · simp only [Machine.fail, caught, innermost_eq caught found]
    rfl
  · change m₁.frames.shrink m.frames.size = m.frames
    rw [frames, shrink_push]
  -- The log and the bindings have not grown since, so there is nothing to undo.
  · change m₁.log.abort m.log.mark = m.log
    rw [under.log]
    exact if_pos rfl
  · change m₁.bindings.restore m.bindings.save = m.bindings
    rw [under.bindings]
    exact if_neg (Nat.lt_irrefl _)

/-- Two failures under the same stack lead to the same place. Only a choice point takes the cursor to
the same position. -/
theorem fail_agrees (chained : m.Chained) (same : SameUndo m m₁) (memo : m₁.memo = m.memo)
    (nodes : m₁.nodes = m.nodes) :
    ∃ target left right, (∀ place, m.fail place = .goto target left) ∧
      (∀ place, m₁.fail place = .goto target right) ∧ Unwinds m target left ∧
      (m.catchIndex ≠ none → Coincides left right) ∧
      (m.catchIndex = none → target = .exitFail ∧ Coincides left (right.standing left.pos)) := by
  cases caught : m.catchIndex with
  | none =>
      have caught' : m₁.catchIndex = none := same.catchIndex.trans caught
      refine ⟨.exitFail, { m with stats := m.stats.backtrack m.pos m.pos m.head },
        { m₁ with stats := m₁.stats.backtrack m₁.pos m₁.pos m₁.head }, fun place => ?_,
        fun place => ?_, ?_, fun some => absurd rfl some, fun _ => ⟨rfl, ?_⟩⟩
      · simp only [Machine.fail, caught]
      · simp only [Machine.fail, caught']
      · unfold Unwinds
        rw [caught]
        exact ⟨rfl, rfl, rfl, rfl⟩
      · exact ⟨⟨⟨same.frames, same.catchIndex⟩, same.log, same.bindings⟩, rfl, memo, nodes⟩
  | some index =>
      obtain ⟨point, found⟩ := chained.found caught
      have caught' : m₁.catchIndex = some index := same.catchIndex.trans caught
      have found' : m₁.frames[index]? = some (.choice point) := by
        rw [same.frames]
        exact found
      refine ⟨point.failure, m.resume index point, m₁.resume index point, fun place => ?_,
        fun place => ?_, ?_, fun _ => ⟨⟨⟨?_, rfl⟩, ?_, ?_⟩, rfl, memo, nodes⟩,
        fun uncaught => by cases uncaught⟩
      · simp only [Machine.fail, caught, innermost_eq caught found]
      · simp only [Machine.fail, caught', innermost_eq caught' found']
      · unfold Unwinds
        rw [caught]
        exact ⟨point, found, rfl, rfl, rfl, rfl, rfl, rfl⟩
      · exact congrArg (fun frames : Array Frame => frames.shrink index) same.frames
      · exact congrArg (fun log : TreeLog τ => log.abort point.tree) same.log
      · exact congrArg (fun bindings : Bindings => bindings.restore point.bindings) same.bindings

/-! ### The spelled form -/

section Spelled

variable {ρ : Type} {layout : Peg.Layout ρ} {pattern : Pattern ByteSet Bytes}

theorem spelled_test (code : Peg.ExprCode task.program layout (.test pattern) place k)
    {length : Nat} (found : pattern.length? task.input m.pos = some length) :
    Reaches task place m k (m.advance length) := by
  obtain ⟨operand, resolved, meets⟩ := code
  refine reaches_next meets fun place next => ?_
  rw [exec_test resolved]
  simp only [test, found]

theorem spelled_testFail (code : Peg.ExprCode task.program layout (.test pattern) place k)
    (missing : pattern.length? task.input m.pos = none)
    (goes : ∀ place, m.fail place = .goto target m₁) : Reaches task place m target m₁ := by
  obtain ⟨operand, resolved, meets⟩ := code
  refine reaches_failing meets (fun place next => ?_) goes
  rw [exec_test resolved]
  simp only [test, missing]

theorem spelled_none (code : Peg.ExprCode task.program layout (.test pattern) place k)
    (missing : pattern.length? task.input m.pos = none) (leads : Leads task.program failure target) :
    ∃ m₁, Reaches task place (m.pushChoice failure) target m₁ ∧ Coincides m m₁ := by
  obtain ⟨m₁, goes, coincides⟩ := fail_returns (m := m) (.refl (m.pushChoice failure)) rfl rfl
  have failed : Reaches task place (m.pushChoice failure) failure m₁ :=
    spelled_testFail code missing goes
  exact ⟨m₁, failed.trans (reaches_of_leads leads m₁), coincides⟩

/-- The body of a repetition that does not consume anything more. -/
theorem spelled_ends {again : InstId}
    (code : Peg.ExprCode task.program layout (.test pattern) place again)
    (meets : Meets task.program again (.control .step) place) (leads : Leads task.program failure k)
    (stops : ∀ rest, pattern.length? task.input m.pos ≠ some (rest + 1)) :
    ∃ m₁, Reaches task place (m.pushChoice failure) k m₁ ∧ Coincides m m₁ := by
  cases found : pattern.length? task.input m.pos with
  | none => exact spelled_none code found leads
  | some length =>
      cases length with
      | succ rest => exact absurd found (stops rest)
      | zero =>
          let idle : Machine σ τ := (m.pushChoice failure).advance 0
          have under : SameUndo (m.pushChoice failure) idle := ⟨⟨rfl, rfl⟩, rfl, rfl⟩
          have matched : Reaches task place (m.pushChoice failure) again idle :=
            spelled_test code found
          obtain ⟨m₁, goes, coincides⟩ := fail_returns under rfl rfl
          have failed : Reaches task again idle failure m₁ :=
            reaches_failing meets (step_fails under.toSameStack rfl) goes
          exact ⟨m₁, (matched.trans failed).trans (reaches_of_leads leads m₁), coincides⟩

/-- The body of a repetition goes on behind all matches that consume something. The induction is on
the bytes that are left. -/
theorem spelled_loop {again : InstId}
    (code : Peg.ExprCode task.program layout (.test pattern) place again)
    (meets : Meets task.program again (.control .step) place) (leads : Leads task.program failure k)
    {fuel : Nat} (enough : task.input.size - m.pos ≤ fuel) :
    ∃ m₁, Reaches task place (m.pushChoice failure) k m₁ ∧
      Coincides (m.standing (pattern.skip task.input fuel m.pos)) m₁ := by
  induction fuel generalizing m with
  | zero =>
      -- No byte is left that a match could consume.
      have stops : ∀ rest, pattern.length? task.input m.pos ≠ some (rest + 1) := by
        intro rest found
        have within := Pattern.length?_within found
        omega
      exact spelled_ends code meets leads stops
  | succ fuel ih =>
      rw [Pattern.skip]
      split
      · next length found =>
          let matched : Machine σ τ := (m.pushChoice failure).advance (length + 1)
          have within : m.pos + (length + 1) ≤ task.input.size := Pattern.length?_within found
          have first : Reaches task place (m.pushChoice failure) again matched :=
            spelled_test code found
          have under : SameStack (m.pushChoice failure) matched := ⟨rfl, rfl⟩
          have moved : matched.pos ≠ m.pos := by
            change m.pos + (length + 1) ≠ m.pos
            omega
          have renewed : Reaches task again matched place ((matched.withStack m).pushChoice failure) :=
            reaches_step meets under moved
          have left : task.input.size - (matched.withStack m).pos ≤ fuel := by
            change task.input.size - (m.pos + (length + 1)) ≤ fuel
            omega
          obtain ⟨m₁, rest, coincides⟩ := ih left
          exact ⟨m₁, (first.trans renewed).trans rest, coincides⟩
      · next stops => exact spelled_ends code meets leads stops

theorem spelled_some {done : InstId}
    (code : Peg.ExprCode task.program layout (.test pattern) place done)
    (meets : Meets task.program done (.control .succ) k) {length : Nat}
    (found : pattern.length? task.input m.pos = some length) :
    Reaches task place (m.pushChoice failure) k (m.standing (m.pos + length)) := by
  have matched : Reaches task place (m.pushChoice failure) done
      ((m.pushChoice failure).advance length) := spelled_test code found
  exact matched.trans (reaches_succ meets ⟨rfl, rfl⟩)

variable {policy : Policy}

theorem spelled_passes (code : Peg.ExprCode task.program layout (policy.expr pattern) place k)
    (passes : policy.refuses task.input pattern m.pos = false) :
    ∃ m₁, Reaches task place m k m₁ ∧
      Coincides (m.standing (policy.stop task.input pattern m.pos)) m₁ := by
  cases policy with
  | once =>
      cases found : pattern.length? task.input m.pos with
      | none =>
          rw [Policy.refuses, found] at passes
          cases passes
      | some length =>
          refine ⟨m.advance length, spelled_test code found, ?_⟩
          rw [Policy.stop, found]
          exact .refl _
  | absent =>
      obtain ⟨absent, body, done, stuck, next, pushes, code, gives, fails, leads⟩ := code
      have pushed := reaches_alt pushes m
      cases found : pattern.length? task.input m.pos with
      | none =>
          obtain ⟨m₁, failed, coincides⟩ := spelled_none code found leads
          exact ⟨m₁, pushed.trans failed, coincides⟩
      | some length =>
          rw [Policy.refuses, found] at passes
          cases passes
  | optional =>
      obtain ⟨none, body, done, pushes, code, gives, leads⟩ := code
      have pushed := reaches_alt pushes m
      rw [Policy.stop]
      cases found : pattern.length? task.input m.pos with
      | none =>
          obtain ⟨m₁, failed, coincides⟩ := spelled_none code found leads
          exact ⟨m₁, pushed.trans failed, coincides⟩
      | some length => exact ⟨_, pushed.trans (spelled_some code gives found), .refl _⟩
  | many =>
      obtain ⟨stop, body, again, pushes, code, meets, leads⟩ := code
      obtain ⟨m₁, looped, coincides⟩ := spelled_loop (m := m) code meets leads (Nat.le_refl _)
      exact ⟨m₁, (reaches_alt pushes m).trans looped, coincides⟩

/-- Where the short form fails, the spelled form fails as well, perhaps with the cursor elsewhere. -/
theorem spelled_refuses (code : Peg.ExprCode task.program layout (policy.expr pattern) place k)
    (refuses : policy.refuses task.input pattern m.pos = true) :
    ∃ pos, ∀ target m₁, (∀ place, (m.standing pos).fail place = .goto target m₁) →
      Reaches task place m target m₁ := by
  cases policy with
  | optional | many => cases refuses
  | once =>
      have missing : pattern.length? task.input m.pos = none := Option.isNone_iff_eq_none.mp refuses
      exact ⟨m.pos, fun target m₁ goes => spelled_testFail code missing goes⟩
  | absent =>
      obtain ⟨absent, body, done, stuck, next, pushes, code, gives, fails, _⟩ := code
      obtain ⟨length, found⟩ := Option.isSome_iff_exists.mp refuses
      refine ⟨m.pos + length, fun target m₁ goes => ?_⟩
      have given : Reaches task body (m.pushChoice absent) stuck (m.standing (m.pos + length)) :=
        spelled_some code gives found
      have failed : Reaches task stuck (m.standing (m.pos + length)) target m₁ :=
        reaches_failing fails (fun place next => rfl) goes
      exact ((reaches_alt pushes m).trans given).trans failed

end Spelled

/-! ### Agreement -/

variable {ρ : Type} {options : Options} {past : List (Config σ τ)} {now : Config σ τ}

/-- A test under a policy agrees with its code spelled out, from every state that a machine can come
to. Where it goes on, both go on in states that differ in the furthest position written down and the
statistics only, a repetition behind all matches that there are. Where it fails, both resume at the
innermost choice point in such states; without a choice point both end at the exit of the runs that
do not match, and there the cursors may differ too. -/
theorem policies_agree_with_code {operand : Pattern SetId LitId} {policy : Policy} {short : InstId}
    (finished : task.program.Finished) (execution : Execution task options past now)
    (meets : Meets task.program short (.test operand policy) k) :
    ∃ pattern, task.program.pattern? operand = some pattern ∧
      ∀ (layout : Peg.Layout ρ) (spelled : InstId),
        Peg.ExprCode task.program layout (policy.expr pattern) spelled k →
        ∃ target m₁ m₂, Reaches task short now.machine target m₁ ∧
          Reaches task spelled now.machine target m₂ ∧
          (policy.refuses task.input pattern now.machine.pos = false → target = k ∧ Coincides m₁ m₂) ∧
          (policy.refuses task.input pattern now.machine.pos = true →
            Unwinds now.machine target m₁ ∧
            (now.machine.catchIndex ≠ none → Coincides m₁ m₂) ∧
            (now.machine.catchIndex = none →
              target = .exitFail ∧ Coincides m₁ (m₂.standing m₁.pos))) ∧
          (policy = .many → ∃ count,
            m₁.pos = now.machine.pos + count * pattern.width ∧
            pattern.Exhausts task.input now.machine.pos count) := by
  have known : ∃ pattern, task.program.pattern? operand = some pattern := by
    obtain ⟨stop, next, _, found, _⟩ := meets
    exact (finished.valid.ops stop _ found).pattern?
  obtain ⟨pattern, resolved⟩ := known
  refine ⟨pattern, resolved, fun layout spelled code => ?_⟩
  cases refuses : policy.refuses task.input pattern now.machine.pos with
  | false =>
      let passed := now.machine.standing (policy.stop task.input pattern now.machine.pos)
      have first : Reaches task short now.machine k passed := by
        refine reaches_next meets fun place next => ?_
        rw [exec_test resolved, test_passes refuses]
      obtain ⟨m₂, second, coincides⟩ := spelled_passes code refuses
      refine ⟨k, passed, m₂, first, second, fun _ => ⟨rfl, coincides⟩, ?_, ?_⟩
      · intro refused
        cases refused
      · rintro rfl
        exact Pattern.skip_exhausts (Nat.le_refl _)
  | true =>
      obtain ⟨pos, fails⟩ := spelled_refuses code refuses
      have same : SameUndo now.machine (now.machine.standing pos) := ⟨⟨rfl, rfl⟩, rfl, rfl⟩
      obtain ⟨target, m₁, m₂, goes, goes', unwinds, caught, uncaught⟩ :=
        fail_agrees execution.chained same rfl rfl
      have first : Reaches task short now.machine target m₁ := by
        refine reaches_failing meets (fun place next => ?_) goes
        rw [exec_test resolved, test_refuses refuses]
      refine ⟨target, m₁, m₂, first, fails target m₂ goes', ?_,
        fun _ => ⟨unwinds, caught, uncaught⟩, ?_⟩
      · intro passed
        cases passed
      · rintro rfl
        cases refuses

/-! ### Both forms side by side -/

/-- A negative lookahead and a repetition of the byte `a`, each in its short form and then spelled
out. -/
def bothForms {t : Type} (site : Nat → t) : List (Inst t) :=
  [⟨.test (.byte 0x61) .absent, site 1⟩, ⟨.control (.alt (site 1)), site 4⟩,
    ⟨.test (.byte 0x61) .once, site 5⟩, ⟨.control .succ, site 6⟩, ⟨.control .fail, site 0⟩,
    ⟨.test (.byte 0x61) .many, site 1⟩, ⟨.control (.alt (site 1)), site 9⟩,
    ⟨.test (.byte 0x61) .once, site 10⟩, ⟨.control .step, site 9⟩]

def bothProgram : Program where
  insts := #[exitInst false InstId.exitFail, exitInst true InstId.exitOk] ++ bothForms InstId.mk
  sets := .empty
  literals := .empty
  dispatch := #[]
  memoPoints := #[]
  symbols := .initial
  start := ⟨2⟩

theorem bothProgram_finished : bothProgram.Finished :=
  ⟨_, .inst ⟨2⟩, Assembler.Built.initial.append (bothForms fun place => .inst ⟨place⟩) (by decide),
    rfl⟩

theorem bothProgram_meets {op : Op InstId} {place k : InstId}
    (found : bothProgram.inst? place = some ⟨op, k⟩) : Meets bothProgram place op k :=
  ⟨place, k, .here place, found, .here k⟩

theorem bothProgram_absent (layout : Peg.Layout Unit) :
    Peg.ExprCode bothProgram layout (Policy.absent.expr (.byte 0x61)) ⟨3⟩ ⟨1⟩ :=
  ⟨⟨1⟩, ⟨4⟩, ⟨5⟩, ⟨6⟩, ⟨0⟩, bothProgram_meets rfl, ⟨.byte 0x61, rfl, bothProgram_meets rfl⟩,
    bothProgram_meets rfl, bothProgram_meets rfl, .here _⟩

theorem bothProgram_many (layout : Peg.Layout Unit) :
    Peg.ExprCode bothProgram layout (Policy.many.expr (.byte 0x61)) ⟨8⟩ ⟨1⟩ :=
  ⟨⟨1⟩, ⟨9⟩, ⟨10⟩, bothProgram_meets rfl, ⟨.byte 0x61, rfl, bothProgram_meets rfl⟩,
    bothProgram_meets rfl, .here _⟩

/-- Both forms of the repetition stop at the byte that is no `a`. -/
theorem policies_agree_with_code_many :
    let task : Task Unit Tree := ⟨bothProgram, .ofBytes #[0x61, 0x61, 0x62], Tree.factory⟩
    let m : Machine Unit Tree := (initial bothProgram .initial ()).push (.ret .exitOk)
    ∃ m₁ m₂, Reaches task ⟨7⟩ m ⟨1⟩ m₁ ∧ Reaches task ⟨8⟩ m ⟨1⟩ m₂ ∧ Coincides m₁ m₂ ∧ m₁.pos = 2 := by
  intro task m
  let layout : Peg.Layout Unit := ⟨fun _ => ⟨2⟩, fun _ => none⟩
  have execution : Execution task .initial [] ⟨⟨7⟩, m⟩ := .enter ⟨7⟩ ()
  have meets : Meets task.program ⟨7⟩ (.test (.byte 0x61) .many) ⟨1⟩ := bothProgram_meets rfl
  obtain ⟨pattern, resolved, agree⟩ :=
    policies_agree_with_code (ρ := Unit) bothProgram_finished execution meets
  cases resolved
  obtain ⟨target, m₁, m₂, first, second, passes, _, repeats⟩ :=
    agree layout ⟨8⟩ (bothProgram_many layout)
  obtain ⟨rfl, coincides⟩ := passes rfl
  obtain ⟨count, stop, _, greatest⟩ := repeats rfl
  obtain ⟨repeated, bound⟩ := greatest Nat.one_pos
  have twice : 2 ≤ count := by
    apply bound
    intro earlier within
    have bounded : earlier = 0 ∨ earlier = 1 := by omega
    rcases bounded with rfl | rfl <;> rfl
  have notMore : ¬ 2 < count := fun more => Bool.noConfusion (repeated 2 more)
  refine ⟨m₁, m₂, first, second, coincides, ?_⟩
  have same : m₁.pos = 0 + count * 1 := stop
  omega

/-- Without a choice point the spelled form of a negative lookahead fails with the cursor behind the
byte that it matched. -/
theorem spelled_lookahead_leaves_cursor :
    let task : Task Unit Tree := ⟨bothProgram, .ofBytes #[0x61], Tree.factory⟩
    let m : Machine Unit Tree := (initial bothProgram .initial ()).push (.ret .exitOk)
    let layout : Peg.Layout Unit := ⟨fun _ => ⟨2⟩, fun _ => none⟩
    bothProgram.Finished ∧ Execution task .initial [] ⟨⟨2⟩, m⟩ ∧
      Meets bothProgram ⟨2⟩ (.test (.byte 0x61) .absent) ⟨1⟩ ∧
      Peg.ExprCode bothProgram layout (Policy.absent.expr (.byte 0x61)) ⟨3⟩ ⟨1⟩ ∧
      ∃ m₁ m₂, steps task 2 ⟨2⟩ m = some (.exit false, m₁) ∧
        steps task 5 ⟨3⟩ m = some (.exit false, m₂) ∧ m₁.pos = 0 ∧ m₂.pos = 1 :=
  ⟨bothProgram_finished, .enter ⟨2⟩ (), bothProgram_meets rfl, bothProgram_absent _, _, _, rfl, rfl,
    rfl, rfl⟩

end Machine

end Packrat
