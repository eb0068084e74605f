/-
Where a memoized outcome comes from. A table answers only with what an earlier step of the execution
recorded; the state number that it was recorded under is the one of the moment when the rule was
entered; and a number stands for one view of the bindings for as long as the machine lives. So an outcome
that depends on the bindings is used only where they look as they did then.
-/

import Packrat.Proofs.Bindings.Fingerprint
import Packrat.Proofs.Machine.Backtracking
import Packrat.Proofs.Machine.Invariant
import Packrat.Proofs.Memo.Record

namespace Packrat

def Op.records {t : Type} : Op t → Bool
  | .memo (.store _) => true
  | .memo (.treeStore _) => true
  | .memo (.storeFailure _) => true
  | _ => false

namespace Machine

variable {σ τ : Type} {task : Task σ τ} {options : Options} {past earlier : List (Config σ τ)}
  {now recorder origin : Config σ τ}

/-! ### The history of the bindings -/

theorem Update.history {op : Op InstId} {m m' : Machine σ τ} (update : Update task op m m') :
    ∃ history, m'.bindings = m.bindings.applyAll history := by
  cases update with
  | leave mark pops => exact ⟨[.restore mark], rfl⟩
  | define table value => exact ⟨[.define table value], rfl⟩
  | mask table => exact ⟨[.mask table], rfl⟩
  | save | back | shift | call | drop | count | alt | renew | cut | consume | append | link
  | checkpoint | emit | enter | look | tick | skip | store | storeFailure => exact ⟨[], rfl⟩

theorem Failure.history {m m' : Machine σ τ} (failure : Failure m m') :
    ∃ history, m'.bindings = m.bindings.applyAll history := by
  cases failure with
  | idle => exact ⟨[], rfl⟩
  | resume index point caught found => exact ⟨[.restore point.bindings], rfl⟩

theorem step_history (task : Task σ τ) (place : InstId) (m : Machine σ τ) :
    ∃ history, (reached (m.step task place)).bindings = m.bindings.applyAll history := by
  let Later (m' : Machine σ τ) : Prop := ∃ history, m'.bindings = m.bindings.applyAll history
  have go_on {m₁ m₂ : Machine σ τ} (later : Later m₁)
      (changed : ∃ history, m₂.bindings = m₁.bindings.applyAll history) : Later m₂ := by
    obtain ⟨history, first⟩ := later
    obtain ⟨more, second⟩ := changed
    refine ⟨history ++ more, ?_⟩
    rw [second, first, Bindings.applyAll_append]
  have start : Later m := ⟨[], rfl⟩
  apply step_keeps _ _ start
  · intro inst _ m₁ m₂ later update
    exact go_on later update.history
  · intro m₁ m₂ later failure
    exact go_on later failure.history

structure Derived (past : List (Config σ τ)) (m : Machine σ τ) : Prop where
  whole : ∃ before, m.bindings = Bindings.empty.applyAll before
  parts : ∀ config ∈ past, ∃ after, m.bindings = config.machine.bindings.applyAll after

theorem Derived.step (derived : Derived past now.machine) :
    Derived (now :: past) (reached (now.machine.step task now.place)) := by
  obtain ⟨history, last⟩ := step_history task now.place now.machine
  constructor
  · obtain ⟨before, whole⟩ := derived.whole
    refine ⟨before ++ history, ?_⟩
    rw [last, whole, Bindings.applyAll_append]
  · intro config member
    rcases List.mem_cons.mp member with rfl | member
    · exact ⟨history, last⟩
    · obtain ⟨after, part⟩ := derived.parts config member
      refine ⟨after ++ history, ?_⟩
      rw [last, part, Bindings.applyAll_append]

theorem bindings_leave (m : Machine σ τ) (reason : Halt) :
    (m.leave reason).bindings = m.bindings := by
  cases reason <;> rfl

theorem Execution.derived (execution : Execution task options past now) :
    Derived past now.machine := by
  refine execution.keeps Derived ?_ ?_ ?_
  · intro nodes
    exact ⟨⟨[], rfl⟩, fun config member => by cases member⟩
  · intro past now _ derived
    exact derived.step
  · intro past m reason derived
    have same : ((m.leave reason).push (.ret .exitOk)).bindings = m.bindings :=
      bindings_leave m reason
    exact ⟨by rw [same]; exact derived.whole, by rw [same]; exact derived.parts⟩

/-- Where the state number is that of an earlier moment, so is the view. -/
theorem Execution.view_eq (execution : Execution task options past now) {config : Config σ τ}
    (member : config ∈ past)
    (same : now.machine.bindings.state = config.machine.bindings.state) :
    now.machine.bindings.view = config.machine.bindings.view := by
  obtain ⟨later, earlier, split⟩ := List.append_of_mem member
  obtain ⟨before, whole⟩ := (execution.before split).derived.whole
  obtain ⟨after, grown⟩ := execution.derived.parts config member
  rw [grown, whole] at same ⊢
  exact Bindings.view_of_state_eq before after same

/-! ### Recording -/

/-- The instruction records an outcome at a position: that of a rule that matched, whose choice point
it drops, or that of a rule that failed. -/
inductive Records (program : Program) (recorder : Config σ τ) :
    (dropped : Option Nat) → (pos : Nat) → (id : MemoId) → (entry : MemoEntry τ) → Prop
  | matched {op : Op InstId} {next : InstId} {id : MemoId} {info : MemoPoint} {index : Nat}
      {choice : ChoicePoint} {result : Option τ}
      (found : program.inst? recorder.place = some ⟨op, next⟩)
      (stores : recorder.machine.StoresMatch op id result)
      (known : program.memoPoint? id = some info)
      (caught : recorder.machine.catchIndex = some index)
      (innermost : recorder.machine.frames[index]? = some (.choice choice)) :
      Records program recorder (some index) choice.pos id
        (recorder.machine.matchEntry info choice result)
  | failed {id : MemoId} {next : InstId} {info : MemoPoint}
      (found : program.inst? recorder.place = some ⟨.memo (.storeFailure id), next⟩)
      (known : program.memoPoint? id = some info) :
      Records program recorder none recorder.machine.pos id (recorder.machine.failureEntry info)

/-- When the rule of a recorded outcome was entered: for a match, when the choice point that is dropped
was last set; for a failure, when it is recorded. -/
def EnteredAt (program : Program) (earlier : List (Config σ τ)) (recorder : Config σ τ) :
    (dropped : Option Nat) → (origin : Config σ τ) → Prop
  | some index, origin => Origin program earlier index origin
  | none, origin => origin = recorder

inductive Computed (program : Program) (past : List (Config σ τ)) (pos : Nat) (id : MemoId)
    (entry : MemoEntry τ) (origin : Config σ τ) : Prop
  | intro (later earlier : List (Config σ τ)) {recorder : Config σ τ} {dropped : Option Nat}
      (split : past = later ++ recorder :: earlier)
      (records : Records program recorder dropped pos id entry)
      (entered : EnteredAt program earlier recorder dropped origin)

theorem Computed.later {program : Program} {pos : Nat} {id : MemoId} {entry : MemoEntry τ}
    (computed : Computed program past pos id entry origin) (config : Config σ τ) :
    Computed program (config :: past) pos id entry origin := by
  obtain ⟨later, earlier, split, records, entered⟩ := computed
  refine .intro (config :: later) earlier ?_ records entered
  rw [split]
  rfl

/-! ### What the table answers -/

variable {pos : Nat} {id : MemoId} {state : Option Nat} {entry : MemoEntry τ}

theorem Failure.memo {m m' : Machine σ τ} (failure : Failure m m') : m'.memo = m.memo := by
  cases failure <;> rfl

theorem memo_settle (place : InstId) (effect : Effect σ τ) :
    (reached (settle place effect)).memo = (after effect).memo := by
  cases effect with
  | goto target m => rfl
  | halt reason m => rfl
  | fail m =>
      rcases fail_cases m place with failed | same
      · exact failed.memo
      · exact congrArg Machine.memo same

/-- Only where an outcome is recorded can the table answer with more than before. -/
theorem Update.answers {op : Op InstId} {m m' : Machine σ τ} (update : Update task op m m')
    (plain : op.records = false) (found : (m'.memo.find pos id state).1 = some entry) :
    (m.memo.find pos id state).1 = some entry := by
  cases update with
  | store id info index choice result stores =>
      rcases stores with ⟨same, _⟩ | ⟨same, _⟩ <;> rw [same] at plain <;> cases plain
  | storeFailure id info same => rw [same] at plain; cases plain
  | save | back | shift | call | drop | count | alt | renew | cut | consume | append | link
  | checkpoint | emit | enter | leave | define | mask | look | tick | skip => exact found

theorem Updates.answers {op : Op InstId} {m m' : Machine σ τ} (updates : Updates task op m m')
    (plain : op.records = false) (found : (m'.memo.find pos id state).1 = some entry) :
    (m.memo.find pos id state).1 = some entry := by
  induction updates with
  | refl => exact found
  | tail _ last ih => exact ih (last.answers plain found)

theorem storeMatch_answers {op : MemoOp InstId} {next : InstId} {site : Site} {info : MemoPoint}
    {point : MemoId} {result : Option τ}
    (known : task.program.inst? now.place = some ⟨.memo op, next⟩)
    (stores : now.machine.StoresMatch (.memo op) point result)
    (listed : task.program.memoPoint? point = some info)
    (found : ((after (now.machine.storeMatch site next point info result)).memo.find
      pos id state).1 = some entry) :
    (now.machine.memo.find pos id state).1 = some entry ∨
      ∃ dropped, Records task.program now dropped pos id entry := by
  unfold storeMatch at found
  cases innermost : now.machine.innermost site with
  | error cause =>
      rw [innermost] at found
      exact .inl found
  | ok answer =>
      rw [innermost] at found
      obtain ⟨caught, choice⟩ := innermost_ok innermost
      rcases MemoTable.find_record found with ⟨rfl, rfl, rfl⟩ | before
      · exact .inr ⟨_, .matched known stores listed caught choice⟩
      · exact .inl before

/-- After a step the table answers as it did before, or with what the step recorded. -/
theorem step_answers
    (found : ((reached (now.machine.step task now.place)).memo.find pos id state).1 = some entry) :
    (now.machine.memo.find pos id state).1 = some entry ∨
      ∃ dropped, Records task.program now dropped pos id entry := by
  cases known : task.program.inst? now.place with
  | none =>
      simp only [Machine.step, known] at found
      exact .inl found
  | some inst =>
      rw [step_eq known, memo_settle] at found
      cases plain : inst.op.records with
      | false =>
          have updates := (exec_leaves task now.place inst now.machine).updates
          exact .inl (updates.answers plain found)
      | true =>
          obtain ⟨op, next⟩ := inst
          cases op with
          | memo op =>
              cases op with
              | store point =>
                  simp only [exec, memoStep, Op.memoId?] at found
                  cases listed : task.program.memoPoint? point with
                  | none =>
                      rw [listed] at found
                      exact .inl found
                  | some info =>
                      rw [listed] at found
                      exact storeMatch_answers known (.inl ⟨rfl, rfl⟩) listed found
              | treeStore point =>
                  simp only [exec, memoStep, Op.memoId?] at found
                  cases listed : task.program.memoPoint? point with
                  | none =>
                      rw [listed] at found
                      exact .inl found
                  | some info =>
                      rw [listed] at found
                      exact storeMatch_answers known (.inr ⟨rfl, rfl⟩) listed found
              | storeFailure point =>
                  simp only [exec, memoStep, Op.memoId?] at found
                  cases listed : task.program.memoPoint? point with
                  | none =>
                      rw [listed] at found
                      exact .inl found
                  | some info =>
                      rw [listed] at found
                      rcases MemoTable.find_record found with ⟨rfl, rfl, rfl⟩ | before
                      · exact .inr ⟨none, .failed known listed⟩
                      · exact .inl before
              | lookup | treeLookup => cases plain
          | control | test | dispatch | tree | bindings | count => cases plain

/-! ### Entry -/

theorem Origin.mem {program : Program} {index : Nat}
    (set : Origin program past index origin) : origin ∈ past := by
  obtain ⟨later, earlier, split, _⟩ := set
  rw [split]
  exact List.mem_append_right later List.mem_cons_self

/-- A choice point was last set at one moment only. -/
theorem Origin.unique {program : Program} {index : Nat} {origin' : Config σ τ}
    (first : Origin program past index origin) (second : Origin program past index origin') :
    origin = origin' := by
  obtain ⟨later, earlier, split, sets, last⟩ := first
  obtain ⟨later', earlier', split', sets', last'⟩ := second
  rw [split] at split'
  rcases List.append_eq_append_iff.mp split' with ⟨between, longer, rest⟩ | ⟨between, longer, rest⟩
  · cases between with
    | nil =>
        rw [List.nil_append] at rest
        exact (List.cons.inj rest).1
    | cons head between =>
        cases rest
        have member : origin ∈ later' := by
          rw [longer]
          exact List.mem_append_right later List.mem_cons_self
        exact absurd sets (last' origin member)
  · cases between with
    | nil =>
        rw [List.nil_append] at rest
        exact (List.cons.inj rest).1.symm
    | cons head between =>
        cases rest
        have member : origin' ∈ later := by
          rw [longer]
          exact List.mem_append_right later' List.mem_cons_self
        exact absurd sets' (last origin' member)

theorem Kept.stateAt {m origin : Machine σ τ} {live : List (Nat × Intent τ)} {index : Nat}
    {point : ChoicePoint} (kept : Kept m live index point origin)
    (within : point.bindings.size ≤ m.bindings.size) :
    m.bindings.stateAt point.bindings = origin.bindings.state := by
  have size : origin.bindings.size = point.bindings.size := by
    have lengths := congrArg List.length kept.bindings
    rw [List.length_take, Array.length_toList, Array.length_toList] at lengths
    unfold Bindings.size at within ⊢
    omega
  rw [← kept.settled.stateAt_save]
  unfold Bindings.stateAt Bindings.save
  rw [size]
  cases count : point.bindings.size with
  | zero => rfl
  | succ last =>
      have same : origin.bindings.entries[last]? = m.bindings.entries[last]? := by
        rw [← Array.getElem?_toList, ← kept.bindings, count,
          List.getElem?_take_of_lt (Nat.lt_succ_self last), Array.getElem?_toList]
      simp only [same]

/-- An outcome that depends on the bindings is recorded under their state at the entry. -/
theorem Records.state_eq (execution : Execution task options earlier recorder)
    (disciplined : ∀ config ∈ earlier, Disciplined task.program config) {dropped : Option Nat}
    (records : Records task.program recorder dropped pos id entry)
    (entered : EnteredAt task.program earlier recorder dropped origin) {info : MemoPoint}
    (known : task.program.memoPoint? id = some info) (stateful : info.stateful = true) :
    entry.state = origin.machine.bindings.state := by
  cases records with
  | matched found stores known' caught innermost =>
      rw [known] at known'
      cases known'
      obtain ⟨live, held⟩ := execution.held disciplined
      rw [← Array.getElem?_toList] at innermost
      obtain ⟨origin', set, kept⟩ := held.origins _ _ innermost
      have same : origin = origin' := Origin.unique entered set
      subst same
      have within := held.tables.bound _
        (List.mem_filterMap.mpr ⟨_, List.mem_of_getElem? innermost, rfl⟩)
      simp only [matchEntry, stateful, if_true]
      exact kept.stateAt within
  | failed found known' =>
      rw [known] at known'
      cases known'
      have same : origin = recorder := entered
      subst same
      simp only [failureEntry, memoState, stateful, if_true, Option.getD_some]

/-- The rule of whatever is recorded was entered at some moment. -/
theorem Records.entered (execution : Execution task options earlier recorder)
    (disciplined : ∀ config ∈ earlier, Disciplined task.program config) {dropped : Option Nat}
    (records : Records task.program recorder dropped pos id entry) :
    ∃ origin, EnteredAt task.program earlier recorder dropped origin := by
  cases records with
  | matched found stores known caught innermost =>
      obtain ⟨live, held⟩ := execution.held disciplined
      rw [← Array.getElem?_toList] at innermost
      obtain ⟨origin, set, _⟩ := held.origins _ _ innermost
      exact ⟨origin, set⟩
  | failed found known => exact ⟨recorder, rfl⟩

theorem EnteredAt.mem {program : Program} {later : List (Config σ τ)} {dropped : Option Nat}
    (entered : EnteredAt program earlier recorder dropped origin)
    (split : past = later ++ recorder :: earlier) : origin ∈ past := by
  rw [split]
  apply List.mem_append_right
  cases dropped with
  | none =>
      rw [show origin = recorder from entered]
      exact List.mem_cons_self
  | some index => exact List.mem_cons_of_mem recorder (Origin.mem entered)

theorem memo_leave (m : Machine σ τ) (reason : Halt) : (m.leave reason).memo = m.memo := by
  cases reason <;> rfl

/-- Whatever the table answers was recorded in the past. -/
theorem Execution.computed (execution : Execution task options past now)
    (disciplined : ∀ config ∈ past, Disciplined task.program config)
    (found : (now.machine.memo.find pos id state).1 = some entry) :
    ∃ origin, Computed task.program past pos id entry origin := by
  let Accounted (past : List (Config σ τ)) (m : Machine σ τ) : Prop :=
    (∀ config ∈ past, Disciplined task.program config) →
      (m.memo.find pos id state).1 = some entry →
      ∃ origin, Computed task.program past pos id entry origin
  refine execution.keeps Accounted ?_ ?_ ?_ disciplined found
  · intro nodes _ found
    have unknown : ((MemoTable.ofOptions options task.program.memoPoints.size :
        MemoTable τ).find pos id state).1 = none :=
      MemoTable.find_ofOptions options task.program.memoPoints.size pos id state
    have answered : none = some entry := unknown.symm.trans found
    cases answered
  · intro past now before ih disciplined found
    have earlier : ∀ config ∈ past, Disciplined task.program config := fun config member =>
      disciplined config (List.mem_cons_of_mem now member)
    rcases step_answers found with known | ⟨dropped, records⟩
    · obtain ⟨origin, computed⟩ := ih earlier known
      exact ⟨origin, computed.later now⟩
    · obtain ⟨origin, entered⟩ := records.entered before earlier
      exact ⟨origin, .intro [] past rfl records entered⟩
  · intro past m reason ih disciplined found
    change ((m.leave reason).memo.find pos id state).1 = some entry at found
    rw [memo_leave] at found
    exact ih disciplined found

/-! ### Hits -/

/-- The instruction looks up a memo point that depends on the bindings, and its outcome is known. -/
inductive Hits (program : Program) (now : Config σ τ) (id : MemoId) (entry : MemoEntry τ) : Prop
  | intro {op : MemoOp InstId} {next skip : InstId} (info : MemoPoint)
      (found : program.inst? now.place = some ⟨.memo op, next⟩)
      (looks : op = .lookup id skip ∨ ∃ label, op = .treeLookup id label skip)
      (known : program.memoPoint? id = some info) (stateful : info.stateful = true)
      (answers : (now.machine.memo.lookup now.machine.pos id (now.machine.memoState info)).1 =
        some entry)

/-- A known outcome that depends on the bindings is used only where they look as they did when its rule
was entered. It was recorded by an earlier step, for a rule that was entered at some moment; and from
whatever moment that is, every question about the bindings has the same answer now as it had then. -/
theorem hit_sees_entry_bindings (execution : Execution task options past now)
    (disciplined : ∀ config ∈ past, Disciplined task.program config)
    (hits : Hits task.program now id entry) :
    (∃ origin, Computed task.program past now.machine.pos id entry origin) ∧
      ∀ origin, Computed task.program past now.machine.pos id entry origin →
        ∀ table bytes,
          now.machine.bindings.lookup table = origin.machine.bindings.lookup table ∧
          now.machine.bindings.contains table bytes =
            origin.machine.bindings.contains table bytes := by
  obtain ⟨info, _, _, known, stateful, answers⟩ := hits
  have found : (now.machine.memo.find now.machine.pos id (now.machine.memoState info)).1 =
      some entry := answers
  constructor
  · exact execution.computed disciplined found
  · intro origin computed table bytes
    obtain ⟨later, earlier, split, records, entered⟩ := computed
    have below : ∀ config ∈ earlier, Disciplined task.program config := by
      intro config member
      apply disciplined
      rw [split]
      exact List.mem_append_right later (List.mem_cons_of_mem _ member)
    have recorded : entry.state = origin.machine.bindings.state :=
      records.state_eq (execution.before split) below entered known stateful
    have fresh : now.machine.bindings.state = entry.state := by
      have asked := MemoTable.find_isFresh found
      simp only [memoState, stateful, if_true, MemoEntry.isFresh, beq_iff_eq] at asked
      exact asked
    have same := execution.view_eq (entered.mem split) (fresh.trans recorded)
    constructor
    · exact congrFun (congrArg Bindings.View.latest same) table
    · exact congrFun (congrFun (congrArg Bindings.View.visible same) table) bytes

/-- Code that memoizes a match of the byte `a`, binds a table, fails, and comes to the lookup again. -/
def lookAgain : Program where
  insts := #[⟨.control (.exit false), .exitFail⟩, ⟨.control (.exit true), .exitOk⟩,
    ⟨.control (.alt ⟨3⟩), ⟨3⟩⟩, ⟨.memo (.lookup ⟨0⟩ .exitOk), ⟨4⟩⟩,
    ⟨.control (.alt .exitFail), ⟨5⟩⟩, ⟨.test (.byte 0x61) .once, ⟨6⟩⟩, ⟨.memo (.store ⟨0⟩), ⟨7⟩⟩,
    ⟨.control .pos, ⟨8⟩⟩, ⟨.bindings (.define ⟨1⟩), ⟨9⟩⟩, ⟨.control .fail, .exitFail⟩]
  sets := .empty
  literals := .empty
  dispatch := #[]
  memoPoints := #[⟨⟨1⟩, false, true⟩]
  symbols := .initial
  start := ⟨2⟩

def oneSlot : Options := { Options.initial with slots := some 1 }

/-- The second lookup finds the match, though a table was bound after it was recorded: the binding was
given up, and the state number with it. -/
theorem hit_sees_entry_bindings_again :
    let task : Task Unit Tree := ⟨lookAgain, .ofBytes #[0x61], Tree.factory⟩
    ∃ past now entry origin, Execution task oneSlot past now ∧ past.length = 8 ∧
      Hits lookAgain now ⟨0⟩ entry ∧
      Computed lookAgain past now.machine.pos ⟨0⟩ entry origin ∧
      now.machine.bindings.contains ⟨1⟩ #[] = origin.machine.bindings.contains ⟨1⟩ #[] := by
  intro task
  let m₀ : Machine Unit Tree := (initial lookAgain oneSlot ()).push (.ret .exitOk)
  let m₁ := m₀.pushChoice ⟨3⟩
  let m₂ : Machine Unit Tree :=
    { m₁ with
      memo := (m₁.memo.lookup 0 ⟨0⟩ (some 0)).2
      stats := m₁.stats.countPoint 0 PointStats.miss }
  let m₃ := m₂.pushChoice .exitFail
  let m₄ := m₃.advance 1
  let m₅ : Machine Unit Tree :=
    { m₄.cut 2 ⟨.exitFail, 0, TreeLog.startMark, ⟨0⟩, some 1⟩ with
      memo := m₄.memo.record 0 ⟨0⟩ ⟨false, 1, none, 0⟩ }
  let m₆ := m₅.push (.position 1)
  let m₇ := m₆.drop.withBindings fun bindings => bindings.define ⟨1⟩ #[]
  let m₈ := m₇.resume 1 ⟨⟨3⟩, 0, TreeLog.startMark, ⟨0⟩, none⟩
  have unknown : m₁.step task ⟨3⟩ = .goto ⟨4⟩ m₂ := by
    dsimp only [m₂, m₁, m₀, task]
    rfl
  have entered : Execution task oneSlot [] ⟨⟨2⟩, m₀⟩ := .enter ⟨2⟩ ()
  have chosen : Execution task oneSlot _ ⟨⟨3⟩, m₁⟩ := .step entered rfl
  have missed : Execution task oneSlot _ ⟨⟨4⟩, m₂⟩ := .step chosen unknown
  have begun : Execution task oneSlot _ ⟨⟨5⟩, m₃⟩ := .step missed rfl
  have matched : Execution task oneSlot _ ⟨⟨6⟩, m₄⟩ := .step begun rfl
  have stored : Execution task oneSlot _ ⟨⟨7⟩, m₅⟩ := .step matched rfl
  have saved : Execution task oneSlot _ ⟨⟨8⟩, m₆⟩ := .step stored rfl
  have bound : Execution task oneSlot _ ⟨⟨9⟩, m₇⟩ := .step saved rfl
  have again : Execution task oneSlot [⟨⟨9⟩, m₇⟩, ⟨⟨8⟩, m₆⟩, ⟨⟨7⟩, m₅⟩, ⟨⟨6⟩, m₄⟩, ⟨⟨5⟩, m₃⟩,
      ⟨⟨4⟩, m₂⟩, ⟨⟨3⟩, m₁⟩, ⟨⟨2⟩, m₀⟩] ⟨⟨3⟩, m₈⟩ := .step bound rfl
  have disciplined : ∀ config ∈ ([⟨⟨9⟩, m₇⟩, ⟨⟨8⟩, m₆⟩, ⟨⟨7⟩, m₅⟩, ⟨⟨6⟩, m₄⟩, ⟨⟨5⟩, m₃⟩, ⟨⟨4⟩, m₂⟩,
      ⟨⟨3⟩, m₁⟩, ⟨⟨2⟩, m₀⟩] : List (Config Unit Tree)), Disciplined lookAgain config := by
    simp only [List.forall_mem_cons]
    exact ⟨trivial, trivial, trivial, trivial, trivial, trivial, trivial, trivial,
      fun config member => by cases member⟩
  have hits : Hits lookAgain ⟨⟨3⟩, m₈⟩ ⟨0⟩ ⟨false, 1, none, 0⟩ := by
    refine .intro ⟨⟨1⟩, false, true⟩ rfl (.inl rfl) rfl rfl ?_
    dsimp only [m₈, m₇, m₆, m₅, m₄, m₃, m₂, m₁, m₀]
    rfl
  obtain ⟨⟨origin, computed⟩, views⟩ := hit_sees_entry_bindings again disciplined hits
  exact ⟨_, _, _, origin, again, rfl, hits, computed, (views origin computed ⟨1⟩ #[]).2⟩

end Machine

end Packrat
