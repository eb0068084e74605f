/-
The machine implements parsing expressions. The derivation of an expression is followed by
induction, from any state and over any set of rules; the statement about plain code is the case in
which no memo point stands for a rule.
-/

import Packrat.Proofs.Peg.Sites

namespace Packrat.Peg

open Machine (Execution Reaches SameUndo Unwinds)

variable {ρ σ τ : Type} {task : Task σ τ} {rules : ρ → Expr ρ} {layout : Layout ρ}

theorem Derives.evaluates_and_loops (laid : RuleCode task.program layout rules) {e : Expr ρ}
    {pos far : Nat} {result : Option Nat} (derives : Derives task.input rules e pos result far) :
    Evaluates task rules layout e pos result far ∧
      ∀ body, e = .star body → Loops task rules layout body pos result far := by
  -- a repetition is entered anew after each iteration, so its derivation is followed twice: from its
  -- own entry, and from that of its body under the choice point that is there already
  induction derives with
  | test found => exact ⟨evaluates_test found, fun _ same => by cases same⟩
  | testFail missing => exact ⟨evaluates_testFail missing, fun _ same => by cases same⟩
  | seq succeeds _ first second =>
      exact ⟨evaluates_seq succeeds first.1 second.1, fun _ same => by cases same⟩
  | seqFail _ ih => exact ⟨evaluates_seqFail ih.1, fun _ same => by cases same⟩
  | choiceFirst _ ih => exact ⟨evaluates_choiceFirst ih.1, fun _ same => by cases same⟩
  | choiceSecond fails _ first second =>
      exact ⟨evaluates_choiceSecond fails first.1 second.1, fun _ same => by cases same⟩
  | option _ ih => exact ⟨evaluates_option ih.1, fun _ same => by cases same⟩
  | optionNone _ ih => exact ⟨evaluates_optionNone ih.1, fun _ same => by cases same⟩
  | starFail _ ih =>
      have loops := loops_fail ih.1
      exact ⟨evaluates_star loops, fun _ same => by cases same; exact loops⟩
  | starIdle _ ih =>
      have loops := loops_idle ih.1
      exact ⟨evaluates_star loops, fun _ same => by cases same; exact loops⟩
  | starMore succeeds moves _ first second =>
      have loops := loops_more succeeds first.1 moves (second.2 _ rfl)
      exact ⟨evaluates_star loops, fun _ same => by cases same; exact loops⟩
  | absent _ ih => exact ⟨evaluates_absent ih.1, fun _ same => by cases same⟩
  | absentFail _ ih => exact ⟨evaluates_absentFail ih.1, fun _ same => by cases same⟩
  | ahead succeeds ih =>
      exact ⟨evaluates_ahead succeeds.bounds.1 ih.1, fun _ same => by cases same⟩
  | aheadFail _ ih => exact ⟨evaluates_aheadFail ih.1, fun _ same => by cases same⟩
  | call body ih =>
      refine ⟨?_, fun _ same => by cases same⟩
      intro place k m code at_pos chained faithful
      rcases code with plain | memoized
      · have tracks := evaluates_call laid ih.1 plain at_pos chained faithful
        exact tracks.mono fun _ _ => .inside
      · exact evaluates_site laid body ih.1 memoized at_pos chained faithful

/-- The machine does what a derivation says, whatever is memoized, as long as the table is true, and
calls the rules that the derivation calls. -/
theorem Derives.evaluates (laid : RuleCode task.program layout rules) {e : Expr ρ} {pos far : Nat}
    {result : Option Nat} (derives : Derives task.input rules e pos result far) :
    Evaluates task rules layout e pos result far :=
  (derives.evaluates_and_loops laid).1

theorem Derives.follows (laid : RuleCode task.program layout rules) {e : Expr ρ} {pos far : Nat}
    {result : Option Nat} (derives : Derives task.input rules e pos result far) :
    Follows task rules layout e pos result far :=
  fun place k m code at_pos chained faithful =>
    (derives.evaluates laid place k m code at_pos chained faithful).performs

/-! ### Plain code -/

/-- A layout in which no rule is memoized, so that every call of a rule is a plain one. -/
def Layout.plain (entry : ρ → InstId) : Layout ρ := ⟨entry, fun _ => none⟩

theorem faithful_plain (input : Input) (rules : ρ → Expr ρ) (entry : ρ → InstId)
    (m : Machine σ τ) : Faithful input rules (.plain entry) m :=
  fun _ _ _ _ memoized _ => by cases memoized

/-- From every state that a machine can get into at the entry of the code of an expression: if the
expression succeeds, the run comes to the continuation with the cursor at its end and all else that
a failure would undo unchanged; if it fails, the run resumes at the innermost choice point, in the
state saved there, or ends without a match if there is none. The cursor has been as far as the
derivation went. -/
theorem machine_implements_expressions {options : Options} {past : List (Machine.Config σ τ)}
    {now : Machine.Config σ τ} {entry : ρ → InstId} {e : Expr ρ} {k : InstId}
    (laid : RuleCode task.program (.plain entry) rules)
    (execution : Execution task options past now)
    (code : ExprCode task.program (.plain entry) e now.place k) :
    (∀ stop far, Derives task.input rules e now.machine.pos (some stop) far →
      ∃ m', Reaches task now.place now.machine k m' ∧ m'.pos = stop ∧ SameUndo now.machine m' ∧
        m'.maxPosition = max now.machine.maxPosition far) ∧
    ∀ far, Derives task.input rules e now.machine.pos none far →
      ∃ target m', Reaches task now.place now.machine target m' ∧
        Unwinds now.machine target m' ∧
        m'.maxPosition = max now.machine.landing (max now.machine.maxPosition far) := by
  have faithful := faithful_plain task.input rules entry now.machine
  constructor
  · intro stop far derives
    obtain ⟨m', path, arrives⟩ :=
      derives.follows laid now.place k now.machine code rfl execution.chained faithful
    exact ⟨m', path, arrives.pos, arrives.same, arrives.furthest⟩
  · intro far derives
    obtain ⟨target, m', path, falls⟩ :=
      derives.follows laid now.place k now.machine code rfl execution.chained faithful
    exact ⟨target, m', path, falls.unwinds, falls.furthest⟩

/-- A rule that matches the byte `a`, and an expression that repeats the rule up to the end of the
input. -/
def repeatRules : Unit → Expr Unit := fun _ => .test (.byte 0x61)

def repeatExpr : Expr Unit := .seq (.star (.call ())) (.absent (.test .any))

def repeatProgram : Program where
  insts := #[⟨.control (.exit false), .exitFail⟩, ⟨.control (.exit true), .exitOk⟩,
    ⟨.test (.byte 0x61) .once, ⟨3⟩⟩, ⟨.control .ret, .exitFail⟩,
    ⟨.control (.alt ⟨7⟩), ⟨5⟩⟩, ⟨.control (.call ⟨2⟩ ⟨6⟩ .null), ⟨6⟩⟩, ⟨.control .step, ⟨5⟩⟩,
    ⟨.control (.alt .exitOk), ⟨8⟩⟩, ⟨.test .any .once, ⟨9⟩⟩, ⟨.control .succ, ⟨10⟩⟩,
    ⟨.control .fail, .exitFail⟩]
  sets := .empty
  literals := .empty
  dispatch := #[]
  memoPoints := #[]
  symbols := .initial
  start := ⟨4⟩

theorem machine_implements_repetition :
    ∃ m', Reaches ⟨repeatProgram, .ofBytes #[0x61, 0x61], Tree.factory⟩ ⟨4⟩
        ((Machine.initial repeatProgram .initial ()).push (.ret .exitOk)) .exitOk m' ∧
      m'.pos = 2 ∧ m'.frames = #[.ret .exitOk] ∧ m'.maxPosition = 2 := by
  let task : Task Unit Tree := ⟨repeatProgram, .ofBytes #[0x61, 0x61], Tree.factory⟩
  have meets {op : Op InstId} {place k : InstId}
      (found : repeatProgram.inst? place = some ⟨op, k⟩) : Meets repeatProgram place op k :=
    ⟨place, k, .here place, found, .here k⟩
  have laid : RuleCode repeatProgram (.plain fun _ => ⟨2⟩) repeatRules :=
    fun _ => ⟨⟨3⟩, .exitFail, ⟨.byte 0x61, rfl, meets rfl⟩, meets rfl⟩
  have code : ExprCode repeatProgram (.plain fun _ => ⟨2⟩) repeatExpr ⟨4⟩ .exitOk :=
    ⟨⟨7⟩, ⟨⟨7⟩, ⟨5⟩, ⟨6⟩, meets rfl, .inl ⟨⟨2⟩, ⟨6⟩, .null, ⟨6⟩, meets rfl, .here _, .here _⟩,
        meets rfl, .here _⟩,
      ⟨.exitOk, ⟨8⟩, ⟨9⟩, ⟨10⟩, .exitFail, meets rfl, ⟨.any, rfl, meets rfl⟩, meets rfl, meets rfl,
        .here _⟩⟩
  have matching (pos : Nat)
      (found : Pattern.length? task.input pos (.byte 0x61 : Pattern ByteSet Bytes) = some 1) :
      Derives task.input repeatRules (.call ()) pos (some (pos + 1)) (pos + 1) :=
    .call (.test found)
  have third : Derives task.input repeatRules (.call ()) 2 none 2 := .call (.testFail rfl)
  have derives : Derives task.input repeatRules repeatExpr 0 (some 2) 2 :=
    .seq (.starMore (matching 0 rfl) (by decide)
        (.starMore (matching 1 rfl) (by decide) (.starFail third)))
      (.absent (.testFail rfl))
  have execution : Execution task .initial []
      ⟨⟨4⟩, (Machine.initial repeatProgram .initial ()).push (.ret .exitOk)⟩ := .enter ⟨4⟩ ()
  obtain ⟨m', path, pos, same, furthest⟩ :=
    (machine_implements_expressions laid execution code).1 2 2 derives
  exact ⟨m', path, pos, same.frames, furthest⟩

end Packrat.Peg
