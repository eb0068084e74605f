/-
Whole runs of code with memoized sites. Where the expression that a program starts with has an
outcome, every run ends with it, however much of the table is kept, displaced or never written; so
memoization cannot be told from the answer of a run.
-/

import Packrat.Proofs.Code.Finished
import Packrat.Proofs.Peg.Correctness

namespace Packrat.Peg

open Machine (Reaches steps)

variable {ρ σ τ : Type} {task : Task σ τ} {rules : ρ → Expr ρ} {layout : Layout ρ}

/-- The code that a program starts with ends here: it returns to the exit, or it is at the exit. -/
def Ends (program : Program) (done : InstId) : Prop :=
  ∃ next, Meets program done (.control .ret) next ∨
    Meets program done (.control (.exit true)) next

def entering (program : Program) (options : Options) (nodes : σ) : Machine σ τ :=
  (Machine.initial program options nodes).push (.ret .exitOk)

theorem chained_initial (program : Program) (options : Options) (nodes : σ) :
    (Machine.initial program options nodes : Machine σ τ).Chained :=
  Chained.nil

theorem faithful_entering (options : Options) (nodes : σ) :
    Faithful task.input rules layout (entering task.program options nodes : Machine σ τ) := by
  intro pos point rule entry _ found
  have nothing := MemoTable.find_ofOptions (τ := τ) options task.program.memoPoints.size pos point
    none
  rw [show (entering task.program options nodes : Machine σ τ).memo =
    .ofOptions options task.program.memoPoints.size from rfl, nothing] at found
  cases found

theorem halts_at_exit {place stop next : InstId} {m m' : Machine σ τ} {matched : Bool}
    (path : Reaches task place m stop m')
    (meets : Meets task.program stop (.control (.exit matched)) next) :
    ∃ fuel, steps task fuel place m = some (.exit matched, m') := by
  obtain ⟨last, next, leads, found, _⟩ := meets
  refine (path.trans (Machine.reaches_of_leads leads m')).steps_halt ?_
  rw [Machine.step_eq found]
  rfl

/-- The run of an expression that has an outcome comes to an exit, and with that outcome. -/
theorem comes_to_exit (finished : task.program.Finished)
    (laid : RuleCode task.program layout rules) {e : Expr ρ} {place done : InstId}
    (leads : Leads task.program task.program.start place)
    (code : ExprCode task.program layout e place done) (ends : Ends task.program done)
    {result : Option Nat} {far : Nat} (derives : Derives task.input rules e 0 result far)
    (options : Options) (nodes : σ) :
    ∃ exit next m,
      Traces task layout (Calls task.input rules e 0) task.program.start
        (entering task.program options nodes) exit m ∧
      Meets task.program exit (.control (.exit result.isSome)) next ∧
      (∀ stop, result = some stop → m.pos = stop) ∧ m.maxPosition = far := by
  let m : Machine σ τ := entering task.program options nodes
  have chained : (Machine.initial task.program options nodes : Machine σ τ).Chained :=
    chained_initial _ _ _
  have tracks := derives.evaluates laid place done m code rfl (chained.push rfl)
    (faithful_entering options nodes)
  have entered := Tracks.before (Traces.leads leads m) tracks
  have started : m.maxPosition = 0 := rfl
  obtain ⟨⟨failNext, fail⟩, okNext, ok⟩ := finished.exits
  cases result with
  | some stop =>
      obtain ⟨m', path, arrives⟩ := entered
      have furthest : m'.maxPosition = far := by
        rw [arrives.furthest, started, Nat.zero_max]
      have at_stop (stop' : Nat) (same : some stop = some stop') : m'.pos = stop' := by
        cases same
        exact arrives.pos
      obtain ⟨next, ret | exit⟩ := ends
      · have returned := Machine.course_ret chained ret arrives.same.toSameStack
        exact ⟨.exitOk, okNext, _, path.trans (.quiet returned rfl), ⟨_, _, .here _, ok, .here _⟩,
          at_stop, furthest⟩
      · exact ⟨done, next, m', path, exit, at_stop, furthest⟩
  | none =>
      obtain ⟨target, m', path, falls⟩ := entered
      obtain ⟨rfl, _⟩ : target = .exitFail ∧ _ := falls.unwinds
      refine ⟨.exitFail, failNext, m', path, ⟨_, _, .here _, fail, .here _⟩,
        (fun stop same => by cases same), ?_⟩
      have ground : m.landing = 0 := rfl
      rw [falls.furthest, started, ground, Nat.zero_max, Nat.zero_max]

/-- The run of an expression that has an outcome ends, and at that outcome. -/
theorem halts_of_derives (finished : task.program.Finished)
    (laid : RuleCode task.program layout rules) {e : Expr ρ} {place done : InstId}
    (leads : Leads task.program task.program.start place)
    (code : ExprCode task.program layout e place done) (ends : Ends task.program done)
    {result : Option Nat} {far : Nat} (derives : Derives task.input rules e 0 result far)
    (options : Options) (nodes : σ) :
    ∃ fuel m, steps task fuel task.program.start (entering task.program options nodes) =
        some (.exit result.isSome, m) ∧
      (∀ stop, result = some stop → m.pos = stop) ∧ m.maxPosition = far := by
  obtain ⟨exit, next, m, ⟨keys, course, _⟩, meets, reported⟩ :=
    comes_to_exit finished laid leads code ends derives options nodes
  obtain ⟨fuel, halts⟩ := halts_at_exit course.reaches meets
  exact ⟨fuel, m, halts, reported⟩

theorem run_of_steps {fuel : Nat} {start : InstId} {options : Options} {nodes : σ}
    {matched : Bool} {m : Machine σ τ}
    (halts : steps task fuel start (entering task.program options nodes) =
      some (.exit matched, m)) :
    (Machine.initial task.program options nodes).run task fuel start =
      some (.exit matched, m.tally) := by
  rw [Machine.run_eq_leave]
  exact congrArg (Option.map _) halts

theorem execute_of_steps {fuel : Nat} {start : InstId} {options : Options} {nodes : σ}
    {matched : Bool} {m : Machine σ τ}
    (halts : steps task fuel start (entering task.program options nodes) =
      some (.exit matched, m)) :
    ∃ outcome left, execute task fuel start options nodes = some (.outcome outcome left) ∧
      outcome.matched = matched ∧ outcome.position = m.pos ∧
      outcome.maxPosition = m.maxPosition ∧
      outcome.tree =
        if matched then some (m.log.parseResult task.factory 0 m.pos m.nodes).1 else none := by
  refine ⟨(m.tally.outcome task options matched).1, (m.tally.outcome task options matched).2, ?_, ?_⟩
  · unfold execute
    rw [run_of_steps halts]
  · cases matched <;> exact ⟨rfl, rfl, rfl, rfl⟩

theorem steps_of_execute {fuel : Nat} {start : InstId} {options : Options} {nodes left : σ}
    {outcome : Outcome τ}
    (answers : execute task fuel start options nodes = some (.outcome outcome left)) :
    ∃ matched m, steps task fuel start (entering task.program options nodes) =
      some (.exit matched, m) := by
  unfold execute at answers
  rw [Machine.run_eq_leave] at answers
  cases halts : steps task fuel start (entering task.program options nodes) with
  | none =>
      unfold entering at halts
      rw [halts] at answers
      cases answers
  | some answer =>
      obtain ⟨reason, m⟩ := answer
      unfold entering at halts
      rw [halts] at answers
      cases reason with
      | exit matched => exact ⟨matched, m, rfl⟩
      | fault fault => cases answers
      | trap => cases answers

/-- Memoization is transparent for recognition: under any options a run ends at an exit, with the
same verdict, the same end of the match and the same furthest position as without memoization. -/
theorem memoization_transparent (finished : task.program.Finished)
    (laid : RuleCode task.program layout rules) {e : Expr ρ} {place done : InstId}
    (leads : Leads task.program task.program.start place)
    (code : ExprCode task.program layout e place done) (ends : Ends task.program done)
    {result : Option Nat} {far : Nat} (derives : Derives task.input rules e 0 result far)
    (options : Options) (nodes : σ) :
    ∃ fuel outcome plain left left',
      execute task fuel task.program.start options nodes = some (.outcome outcome left) ∧
      execute task fuel task.program.start { options with memo := .disabled } nodes =
        some (.outcome plain left') ∧
      outcome.matched = plain.matched ∧
      (outcome.matched = true → outcome.position = plain.position) ∧
      outcome.maxPosition = plain.maxPosition := by
  obtain ⟨fuel, m, halts, stop, furthest⟩ :=
    halts_of_derives finished laid leads code ends derives options nodes
  obtain ⟨fuel', m', halts', stop', furthest'⟩ :=
    halts_of_derives finished laid leads code ends derives { options with memo := .disabled } nodes
  have longer := Machine.steps_mono halts fuel'
  have longer' := Machine.steps_mono halts' fuel
  rw [Nat.add_comm] at longer'
  obtain ⟨outcome, left, answers, matched, position, reach, _⟩ := execute_of_steps longer
  obtain ⟨plain, left', answers', matched', position', reach', _⟩ := execute_of_steps longer'
  refine ⟨fuel + fuel', outcome, plain, left, left', answers, answers', ?_, fun succeeded => ?_, ?_⟩
  · rw [matched, matched']
  · obtain ⟨last, same⟩ := Option.isSome_iff_exists.mp (matched.symm.trans succeeded)
    rw [position, position', stop last same, stop' last same]
  · rw [reach, reach', furthest, furthest']

/-- Two alternatives that begin with one rule, the byte `a`, and go on with `b` and with `c`. -/
def sharedExpr : Expr Unit :=
  .choice (.seq (.call ()) (.test (.byte 0x62))) (.seq (.call ()) (.test (.byte 0x63)))

/-- Code of the alternatives from the fourth place on, with a memoized site in each, and of the rule
at the second place. -/
def sharedCode {t : Type} (site : Nat → t) : List (Inst t) :=
  [⟨.test (.byte 0x61) .once, site 3⟩, ⟨.control .ret, site 0⟩, ⟨.control (.alt (site 11)), site 5⟩,
    ⟨.memo (.lookup ⟨0⟩ (site 9)), site 6⟩, ⟨.control (.alt (site 14)), site 7⟩,
    ⟨.control (.call (site 2) (site 8) .null), site 8⟩, ⟨.memo (.store ⟨0⟩), site 9⟩,
    ⟨.test (.byte 0x62) .once, site 10⟩, ⟨.control .succ, site 1⟩,
    ⟨.memo (.lookup ⟨0⟩ (site 16)), site 12⟩, ⟨.control (.alt (site 14)), site 13⟩,
    ⟨.control (.call (site 2) (site 15) .null), site 15⟩, ⟨.memo (.storeFailure ⟨0⟩), site 0⟩,
    ⟨.memo (.store ⟨0⟩), site 16⟩, ⟨.test (.byte 0x63) .once, site 1⟩]

def sharedAssembler : Assembler :=
  { Assembler.initial with memoPoints := #[⟨.null, false, false⟩] }

def sharedProgram : Program where
  insts := #[exitInst false InstId.exitFail, exitInst true InstId.exitOk] ++ sharedCode InstId.mk
  sets := .empty
  literals := .empty
  dispatch := #[]
  memoPoints := #[⟨.null, false, false⟩]
  symbols := .initial
  start := ⟨4⟩

theorem sharedProgram_finished : sharedProgram.Finished := by
  have pointed : Assembler.initial.memoPoint ⟨.null, false, false⟩ = .ok (⟨0⟩, sharedAssembler) :=
    rfl
  exact ⟨_, .inst ⟨4⟩, (Assembler.Built.initial.memoPoint pointed).append
    (sharedCode fun place => .inst ⟨place⟩) (by decide), rfl⟩

def sharedLayout : Layout Unit where
  entry _ := ⟨2⟩
  memoized point := if point = ⟨0⟩ then some () else none

def sharedRules : Unit → Expr Unit := fun _ => .test (.byte 0x61)

theorem sharedProgram_meets {op : Op InstId} {place k : InstId}
    (found : sharedProgram.inst? place = some ⟨op, k⟩) : Meets sharedProgram place op k :=
  ⟨place, k, .here place, found, .here k⟩

theorem sharedProgram_laid : RuleCode sharedProgram sharedLayout sharedRules :=
  fun _ => ⟨⟨3⟩, .exitFail, ⟨.byte 0x61, rfl, sharedProgram_meets rfl⟩, sharedProgram_meets rfl⟩

theorem sharedProgram_code : ExprCode sharedProgram sharedLayout sharedExpr ⟨4⟩ ⟨1⟩ := by
  have meets {op : Op InstId} {place k : InstId}
      (found : sharedProgram.inst? place = some ⟨op, k⟩) := sharedProgram_meets found
  have firstSite : MemoCode sharedProgram sharedLayout () ⟨5⟩ ⟨9⟩ :=
    ⟨⟨0⟩, ⟨.null, false, false⟩, ⟨9⟩, ⟨6⟩, ⟨14⟩, ⟨7⟩, ⟨8⟩, ⟨0⟩, rfl, rfl, rfl, meets rfl, .here _,
      meets rfl, ⟨⟨2⟩, ⟨8⟩, .null, ⟨8⟩, meets rfl, .here _, .here _⟩, meets rfl, meets rfl⟩
  have secondSite : MemoCode sharedProgram sharedLayout () ⟨11⟩ ⟨16⟩ :=
    ⟨⟨0⟩, ⟨.null, false, false⟩, ⟨16⟩, ⟨12⟩, ⟨14⟩, ⟨13⟩, ⟨15⟩, ⟨0⟩, rfl, rfl, rfl, meets rfl,
      .here _, meets rfl, ⟨⟨2⟩, ⟨15⟩, .null, ⟨15⟩, meets rfl, .here _, .here _⟩, meets rfl,
      meets rfl⟩
  exact ⟨⟨11⟩, ⟨5⟩, ⟨10⟩, meets rfl, ⟨⟨9⟩, .inr firstSite, .byte 0x62, rfl, meets rfl⟩, meets rfl,
    ⟨16⟩, .inr secondSite, .byte 0x63, rfl, meets rfl⟩

theorem sharedProgram_ends : Ends sharedProgram ⟨1⟩ :=
  ⟨_, .inr (sharedProgram_meets rfl)⟩

theorem shared_derives :
    Derives (.ofBytes #[0x61, 0x63]) sharedRules sharedExpr 0 (some 2) 2 := by
  let input : Input := .ofBytes #[0x61, 0x63]
  have matching (byte : UInt8) (pos : Nat)
      (found : Pattern.length? input pos (.byte byte : Pattern ByteSet Bytes) = some 1) :
      Derives input sharedRules (.test (.byte byte)) pos (some (pos + 1)) (pos + 1) :=
    .test found
  have rule : Derives input sharedRules (.call ()) 0 (some 1) 1 := .call (matching 0x61 0 rfl)
  exact .choiceSecond (.seq rule (.testFail rfl)) (.seq rule (matching 0x63 1 rfl))

/-- The second alternative finds the outcome that the first one recorded, in a table of one slot. -/
theorem memoization_transparent_shared :
    let task : Task Unit Tree := ⟨sharedProgram, .ofBytes #[0x61, 0x63], Tree.factory⟩
    let options : Options := { Options.initial with slots := some 1 }
    ∃ fuel outcome plain left left',
      execute task fuel ⟨4⟩ options () = some (.outcome outcome left) ∧
      execute task fuel ⟨4⟩ { options with memo := .disabled } () = some (.outcome plain left') ∧
      outcome.matched = plain.matched ∧
      (outcome.matched = true → outcome.position = plain.position) ∧
      outcome.maxPosition = plain.maxPosition := by
  intro task options
  have laid : RuleCode task.program sharedLayout sharedRules := sharedProgram_laid
  exact memoization_transparent sharedProgram_finished laid (.here _) sharedProgram_code
    sharedProgram_ends shared_derives options ()

end Packrat.Peg
