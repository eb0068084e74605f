/-
A finished program keeps the machine in bounds. Places reach the machine from an instruction, from a
dispatch table and from frames, and frames are pushed far from where they are popped; so all that the
stack and the memo table hold is kept inside the program and inside a machine word, step by step.
-/

import Packrat.Proofs.Code.Targets
import Packrat.Proofs.Code.Validity
import Packrat.Proofs.Machine.Invariant
import Packrat.Proofs.Memo.Record

namespace Packrat

def wordLimit : Nat := 0x10000000000000000

def Frame.Inside (program : Program) : Frame → Prop
  | .choice point => point.failure.index < program.size ∧ point.pos < wordLimit
  | .ret target => target.index < program.size
  | .position pos => pos < wordLimit
  | .tree _ => True
  | .bindings _ => True
  | .count _ => True

namespace Machine

variable {σ τ : Type} {task : Task σ τ} {program : Program} {m m' : Machine σ τ}

/-- All that the machine holds is inside the program and inside a machine word. -/
structure Inside (program : Program) (m : Machine σ τ) : Prop where
  pos : m.pos < wordLimit
  frames : ∀ frame ∈ m.frames.toList, frame.Inside program
  memo : ∀ pos id state entry, (m.memo.find pos id state).1 = some entry →
    entry.failed = false → pos + entry.consumed < wordLimit
  points : m.stats.points.size = program.memoPoints.size

namespace Inside

theorem found (inside : Inside program m) {index : Nat} {frame : Frame}
    (found : m.frames[index]? = some frame) : frame.Inside program := by
  apply inside.frames
  rw [← Array.getElem?_toList] at found
  exact List.mem_of_getElem? found

theorem popped (inside : Inside program m) {frame : Frame} (pops : m.Pops frame) :
    frame.Inside program := by
  have top := pops.top
  rw [Array.back?_eq_getElem?] at top
  exact inside.found top

theorem moved (inside : Inside program m) {pos : Nat} (within : pos < wordLimit) :
    Inside program { m with pos := pos } :=
  { inside with pos := within }

theorem rollback (inside : Inside program m) {pos : Nat} (within : pos < wordLimit) :
    Inside program (m.rollback pos) :=
  { inside with pos := within }

theorem push (inside : Inside program m) {frame : Frame} (within : frame.Inside program) :
    Inside program (m.push frame) := by
  have frames : ∀ other ∈ (m.frames.push frame).toList, other.Inside program := by
    intro other member
    rw [Array.toList_push, List.mem_append] at member
    rcases member with below | top
    · exact inside.frames other below
    · rw [List.mem_singleton.mp top]
      exact within
  exact { inside with frames := frames }

theorem drop (inside : Inside program m) : Inside program m.drop := by
  have frames : ∀ other ∈ m.frames.pop.toList, other.Inside program := by
    intro other member
    rw [Array.toList_pop] at member
    exact inside.frames other (List.dropLast_subset _ member)
  exact { inside with frames := frames }

theorem cut (inside : Inside program m) (index : Nat) (point : ChoicePoint) :
    Inside program (m.cut index point) := by
  have frames : ∀ other ∈ (m.frames.shrink index).toList, other.Inside program := by
    intro other member
    rw [Array.toList_shrink] at member
    exact inside.frames other (List.mem_of_mem_take member)
  exact { inside with frames := frames }

theorem pushChoice (inside : Inside program m) {failure : InstId}
    (within : failure.index < program.size) : Inside program (m.pushChoice failure) := by
  let point : ChoicePoint := ⟨failure, m.pos, m.log.mark, m.bindings.save, m.catchIndex⟩
  have pushed : Inside program (m.push (.choice point)) := inside.push ⟨within, inside.pos⟩
  exact { pushed with }

theorem renewChoice (inside : Inside program m) {index : Nat} {point : ChoicePoint}
    (found : m.frames[index]? = some (.choice point)) :
    Inside program (m.renewChoice index point) := by
  have frames : ∀ other ∈ (m.renewChoice index point).frames.toList, other.Inside program := by
    intro other member
    unfold Machine.renewChoice at member
    rw [Array.toList_setIfInBounds] at member
    rcases List.mem_or_eq_of_mem_set member with before | renewed
    · exact inside.frames other before
    · rw [renewed]
      exact ⟨(inside.found found).1, inside.pos⟩
  exact { inside with frames := frames }

end Inside

/-! ### What a step keeps -/

theorem shiftedFrom_lt {pos : Nat} {shift : Int} {moved : Nat}
    (shifted : shiftedFrom pos shift = some moved) : moved < wordLimit := by
  unfold shiftedFrom at shifted
  dsimp only at shifted
  split at shifted
  · next within =>
      cases shifted
      unfold wordLimit
      omega
  · cases shifted

theorem Update.inside {op : Op InstId} (update : Update task op m m')
    (within : op.Within task.program) (small : task.input.size < wordLimit)
    (inside : Inside task.program m) : Inside task.program m' := by
  cases update with
  | save => exact inside.push inside.pos
  | back pos pops => exact inside.drop.rollback (inside.popped pops)
  | shift amount pos same moved => exact inside.rollback (shiftedFrom_lt moved)
  | call after member => exact inside.push (within.targets after member)
  | drop frame pops => exact inside.drop
  | count left => exact inside.push trivial
  | alt failure same =>
      apply inside.pushChoice
      apply within.targets
      rw [same]
      exact List.mem_singleton.mpr rfl
  | renew index point checks caught found moved => exact inside.renewChoice found
  | cut index point caught found => exact inside.cut index point
  | consume length bounded =>
      have pos := inside.pos
      exact inside.moved (by omega)
  | append intent => exact { inside with }
  | link label child => exact { inside with }
  | checkpoint => exact inside.push trivial
  | emit mark label pops => exact { inside.drop with }
  | enter => exact inside.push trivial
  | leave mark pops => exact { inside.drop with }
  | define table value => exact { inside with }
  | mask table => exact { inside with }
  | look id state => exact { inside with }
  | tick id change looks =>
      have points : (m.stats.points.modify id.index change).size =
          task.program.memoPoints.size := by
        rw [Array.size_modify]
        exact inside.points
      exact { inside with points := points }
  | skip id state entry found matched => exact inside.moved (inside.memo _ _ _ _ found matched)
  | store id info index choice result stores known caught found =>
      have cut := inside.cut index choice
      refine { cut with memo := ?_ }
      intro pos point state entry answers matched
      rcases MemoTable.find_record answers with ⟨rfl, _, rfl⟩ | before
      · have start := (inside.found found).2
        have here := inside.pos
        change choice.pos + (m.pos - choice.pos) < wordLimit
        omega
      · exact inside.memo pos point state entry before matched
  | storeFailure id info same known =>
      refine { inside with memo := ?_ }
      intro pos point state entry answers matched
      rcases MemoTable.find_record answers with ⟨_, _, rfl⟩ | before
      · cases matched
      · exact inside.memo pos point state entry before matched

theorem Failure.inside (failure : Failure m m') (inside : Inside program m) :
    Inside program m' := by
  have points (saved current head : Nat) :
      (m.stats.backtrack saved current head).points = m.stats.points := by
    unfold RunStats.backtrack
    split <;> rfl
  cases failure with
  | idle => exact { inside with points := (congrArg Array.size (points _ _ _)).trans inside.points }
  | resume index point caught found =>
      have cut := inside.cut index point
      exact
        { cut with
          pos := (inside.found found).2
          points := (congrArg Array.size (points _ _ _)).trans inside.points }

/-! ### Where a step leads -/

/-- Wherever control can go is in the program. -/
theorem Goes.within {inst : Inst InstId} {target : InstId} (goes : Goes task inst m target)
    (valid : task.program.Valid) {place : InstId} (found : task.program.inst? place = some inst)
    (inside : Inside task.program m) : target.index < task.program.size := by
  cases goes with
  | next uses => exact valid.nexts place inst found uses
  | target member => exact (valid.ops place inst found).targets target member
  | ret pops => exact inside.popped pops
  | @branch id consume table _ same known selects =>
      have member : table ∈ task.program.dispatch := Array.mem_of_getElem? known
      obtain ⟨other, selects', within⟩ :=
        (valid.tables table member).target? (task.input.byteAt? m.pos)
      rw [selects] at selects'
      cases selects'
      exact within

theorem fail_within {place target : InstId} (exits : 2 ≤ program.size)
    (inside : Inside program m) (goes : m.fail place = .goto target m') :
    target.index < program.size := by
  unfold Machine.fail at goes
  cases caught : m.catchIndex with
  | none =>
      rw [caught] at goes
      cases goes
      exact Nat.lt_of_lt_of_le Nat.zero_lt_two exits
  | some index =>
      rw [caught] at goes
      cases innermost : m.innermost ⟨place, .control .fail⟩ with
      | error cause => simp only [innermost] at goes; cases goes
      | ok answer =>
          simp only [innermost] at goes
          cases goes
          exact (inside.found (innermost_ok innermost).2).1

theorem fail_sound (place : InstId) (m m' : Machine σ τ) : m.fail place ≠ .halt .trap m' := by
  intro trapped
  unfold Machine.fail at trapped
  cases caught : m.catchIndex with
  | none => rw [caught] at trapped; cases trapped
  | some index =>
      rw [caught] at trapped
      cases innermost : m.innermost ⟨place, .control .fail⟩ with
      | error cause => simp only [innermost] at trapped; cases trapped
      | ok answer => simp only [innermost] at trapped; cases trapped

section Step

variable (valid : task.program.Valid) (small : task.input.size < wordLimit)
  (inside : Inside task.program m)

include valid small inside

theorem step_inside (place : InstId) : Inside task.program (reached (m.step task place)) := by
  apply step_keeps _ _ inside
  · intro inst found m₁ m₂ inside update
    exact update.inside (valid.ops place inst found) small inside
  · intro m₁ m₂ inside failure
    exact failure.inside inside

theorem step_within {place target : InstId} (goes : m.step task place = .goto target m') :
    target.index < task.program.size := by
  cases found : task.program.inst? place with
  | none => simp only [Machine.step, found] at goes; cases goes
  | some inst =>
      rw [step_eq found] at goes
      have leaves := exec_leaves task place inst m
      cases effect : m.exec task place inst with
      | goto target' m₁ =>
          rw [effect] at goes leaves
          cases goes
          cases leaves with
          | goto updates reaches => exact reaches.within valid found inside
      | fail m₁ =>
          rw [effect] at goes leaves
          have failing : Inside task.program m₁ := by
            apply updates_keep _ leaves.updates inside
            intro m₁ m₂ inside update
            exact update.inside (valid.ops place inst found) small inside
          exact fail_within valid.exits failing goes
      | halt reason m₁ => rw [effect] at goes; cases goes

end Step

/-- An instruction that names only what is there is not trapped. -/
theorem step_sound (valid : task.program.Valid) {place : InstId}
    (within : place.index < task.program.size) (m m' : Machine σ τ) :
    m.step task place ≠ .halt .trap m' := by
  intro trapped
  have found : task.program.inst? place = some task.program.insts[place.index] :=
    Array.getElem?_eq_getElem within
  rw [step_eq found] at trapped
  have leaves := exec_leaves task place task.program.insts[place.index] m
  cases effect : m.exec task place task.program.insts[place.index] with
  | goto target m₁ => rw [effect] at trapped; cases trapped
  | fail m₁ => rw [effect] at trapped; exact fail_sound place m₁ m' trapped
  | halt reason m₁ =>
      rw [effect] at trapped leaves
      cases trapped
      cases leaves with
      | trap missing => exact missing (valid.ops place _ found)

/-- Where the successor is not used it makes no difference. -/
theorem exec_of_not_usesNext {op : Op InstId} (unused : op.usesNext = false) (task : Task σ τ)
    (place next other : InstId) (m : Machine σ τ) :
    m.exec task place ⟨op, next⟩ = m.exec task place ⟨op, other⟩ := by
  cases op with
  | control op =>
      cases op with
      | exit | jump | ret | fail => rfl
      | nop | pos | back | move | call | alt | succ | guard | step => cases unused
  | dispatch table consume => rfl
  | memo op =>
      cases op with
      | storeFailure point => rfl
      | lookup | store | treeLookup | treeStore => cases unused
  | test | tree | bindings | count => cases unused

/-! ### The cursor -/

/-- The sums that an instruction computes for the cursor: behind a match of a test (at whatever
position, so that this is about every round of a repeated test), behind the byte that a dispatch takes,
behind a binding, and behind what a known match consumed. -/
inductive Adds (task : Task σ τ) (m : Machine σ τ) : (op : Op InstId) → (sum : Nat) → Prop
  | test {pattern : Pattern SetId LitId} {policy : Policy} {held : Pattern ByteSet Bytes}
      {pos length : Nat} (known : task.program.pattern? pattern = some held)
      (matched : held.length? task.input pos = some length) :
      Adds task m (.test pattern policy) (pos + length)
  | dispatch {table : DispatchId} {b : UInt8} (here : task.input.byteAt? m.pos = some b) :
      Adds task m (.dispatch table true) (m.pos + 1)
  | consume {table : Symbol} {bytes : Bytes} (bound : m.bindings.lookup table = some bytes)
      (here : task.input.matchesAt m.pos bytes = true) :
      Adds task m (.bindings (.consume table)) (m.pos + bytes.size)
  | hit {op : MemoOp InstId} {id : MemoId} {info : MemoPoint} {entry : MemoEntry τ}
      (named : (Op.memo op : Op InstId).memoId? = some id)
      (known : task.program.memoPoint? id = some info)
      (answers : (m.memo.lookup m.pos id (m.memoState info)).1 = some entry)
      (matched : entry.failed = false) :
      Adds task m (.memo op) (m.pos + entry.consumed)

theorem Adds.lt_wordLimit {op : Op InstId} {sum : Nat} (adds : Adds task m op sum)
    (small : task.input.size < wordLimit) (inside : Inside task.program m) : sum < wordLimit := by
  cases adds with
  | test known matched =>
      have within := Pattern.length?_within matched
      omega
  | dispatch here =>
      have within := Input.byteAt?_within here
      omega
  | consume bound here =>
      have within := Input.matchesAt_within here
      omega
  | hit named known answers matched => exact inside.memo _ _ _ _ answers matched

/-! ### Runs that begin inside the program -/

/-- What a machine comes to when it is run any number of times, from instructions of the program. -/
inductive Visits (task : Task σ τ) (options : Options) : (now : Config σ τ) → Prop
  | enter (start : InstId) (within : start.index < task.program.size) (nodes : σ) :
      Visits task options ⟨start, (initial task.program options nodes).push (.ret .exitOk)⟩
  | step {now : Config σ τ} {target : InstId} {m : Machine σ τ} (before : Visits task options now)
      (step : now.machine.step task now.place = .goto target m) : Visits task options ⟨target, m⟩
  | again {now : Config σ τ} {reason : Halt} {m : Machine σ τ} (before : Visits task options now)
      (halts : now.machine.step task now.place = .halt reason m) (start : InstId)
      (within : start.index < task.program.size) :
      Visits task options ⟨start, (m.leave reason).push (.ret .exitOk)⟩

theorem Inside.initial (program : Program) (options : Options) (nodes : σ) :
    Inside program (Machine.initial program options nodes : Machine σ τ) := by
  constructor
  · exact Nat.zero_lt_of_lt (by decide : 1 < wordLimit)
  · intro frame member
    cases member
  · intro pos id state entry answers _
    have unknown : ((MemoTable.ofOptions options program.memoPoints.size : MemoTable τ).find
        pos id state).1 = none := MemoTable.find_ofOptions options _ pos id state
    have answered : none = some entry := unknown.symm.trans answers
    cases answered
  · exact Array.size_replicate

theorem Inside.leave (inside : Inside program m) (reason : Halt) :
    Inside program (m.leave reason) := by
  cases reason with
  | exit matched => exact { inside with }
  | fault cause => exact inside
  | trap => exact inside

theorem Visits.inside {options : Options} {now : Config σ τ} (visits : Visits task options now)
    (valid : task.program.Valid) (small : task.input.size < wordLimit) :
    now.place.index < task.program.size ∧ Inside task.program now.machine := by
  have exit : (Frame.ret .exitOk).Inside task.program := valid.exits
  induction visits with
  | enter start within nodes => exact ⟨within, (Inside.initial _ _ nodes).push exit⟩
  | @step now target m before step ih =>
      have stepped := step_inside valid small ih.2 now.place
      rw [step] at stepped
      exact ⟨step_within valid small ih.2 step, stepped⟩
  | @again now reason m before halts start within ih =>
      have stepped := step_inside valid small ih.2 now.place
      rw [halts] at stepped
      exact ⟨within, (Inside.leave stepped reason).push exit⟩

/-- The machine is in bounds before an instruction: it stands at an instruction of the program, all that
the instruction names is there, and so is all that is on the stack. -/
structure InBounds (task : Task σ τ) (now : Config σ τ) (inst : Inst InstId) : Prop where
  place : now.place.index < task.program.size
  found : task.program.inst? now.place = some inst
  operands : inst.op.Within task.program
  successor : inst.op.usesNext = true → inst.next.index < task.program.size
  unused : inst.op.usesNext = false → ∀ next,
    now.machine.exec task now.place ⟨inst.op, next⟩ = now.machine.exec task now.place inst
  frames : ∀ frame ∈ now.machine.frames.toList, frame.Inside task.program
  points : now.machine.stats.points.size = task.program.memoPoints.size
  cursor : now.machine.pos < wordLimit
  sums : ∀ sum, Adds task now.machine inst.op sum → sum < wordLimit
  sound : ∀ m, now.machine.step task now.place ≠ .halt .trap m

/-- A finished program never drives the machine out of bounds. Whatever handles its operands held while
it was assembled, it can be listed; and over any input that fits in memory, whenever the machine is run
from instructions of the program, it stands at an instruction of the program, whose operands are all
there, as are the places on the stack, and no cursor exceeds a machine word. -/
theorem finished_program_stays_in_bounds (finished : task.program.Finished)
    (small : task.input.size < wordLimit) (options : Options) :
    (∃ text, task.program.listing? = some text) ∧
      ∀ now, Visits task options now → ∃ inst, InBounds task now inst := by
  have valid := finished.valid
  refine ⟨valid.listing?, fun now visits => ?_⟩
  obtain ⟨within, inside⟩ := visits.inside valid small
  have found : task.program.inst? now.place = some task.program.insts[now.place.index] :=
    Array.getElem?_eq_getElem within
  refine ⟨task.program.insts[now.place.index], ?_⟩
  constructor
  · exact within
  · exact found
  · exact valid.ops now.place _ found
  · exact valid.nexts now.place _ found
  · intro unused next
    exact exec_of_not_usesNext unused task now.place next _ now.machine
  · exact inside.frames
  · exact inside.points
  · exact inside.pos
  · intro sum adds
    exact adds.lt_wordLimit small inside
  · exact step_sound valid within now.machine

/-- Code that calls a rule for a literal. -/
def callLiteral : Program where
  insts := #[⟨.control (.exit false), .exitFail⟩, ⟨.control (.exit true), .exitOk⟩,
    ⟨.control (.call ⟨3⟩ .exitOk .null), ⟨3⟩⟩, ⟨.test (.literal ⟨0⟩) .once, ⟨4⟩⟩,
    ⟨.control .ret, .exitFail⟩]
  sets := .empty
  literals := #[#[0x61]]
  dispatch := #[]
  memoPoints := #[]
  symbols := .initial
  start := ⟨2⟩

/-- The rule is called through a label that is bound after it is used. -/
theorem callLiteral_finished : callLiteral.Finished := by
  let pooled : Assembler :=
    { Assembler.initial with
      literals := #[#[0x61]]
      literalIds := Assembler.initial.literalIds.insert #[0x61] 0 }
  let labelled : Assembler := { pooled with labels := #[none] }
  let called : Assembler :=
    { labelled with
      insts := labelled.insts.push
        ⟨.control (.call (.label ⟨0⟩) (.inst .exitOk) .null), .inst ⟨3⟩⟩ }
  let bound : Assembler := { called with labels := #[some ⟨3⟩] }
  let tested : Assembler :=
    { bound with insts := bound.insts.push ⟨.test (.literal ⟨0⟩) .once, .inst ⟨4⟩⟩ }
  let returned : Assembler :=
    { tested with insts := tested.insts.push ⟨.control .ret, .inst .exitFail⟩ }
  have literal : Assembler.initial.literal #[0x61] = .ok (⟨0⟩, pooled) := by
    have new : Assembler.initial.literalPool.find? #[0x61] = none :=
      Std.ExtHashMap.getElem?_empty
    simp only [Assembler.literal, Pool.intern, new]
    rfl
  have label : pooled.label = .ok (⟨0⟩, labelled) := rfl
  have call : labelled.emit (.control (.call (.label ⟨0⟩) (.inst .exitOk) .null)) =
      .ok (⟨2⟩, called) := Assembler.emit_of_room _ (by decide)
  have bind : called.bind? ⟨0⟩ = some bound := rfl
  have test : bound.emit (.test (.literal ⟨0⟩) .once) = .ok (⟨3⟩, tested) :=
    Assembler.emit_of_room _ (by decide)
  have ret : tested.emitTo (.control .ret) (.inst .exitFail) = .ok (⟨4⟩, returned) := rfl
  have built : returned.Built :=
    .emitTo (.emit (.bind (.emit (.label (.literal .initial literal) label) call) bind) test) ret
  exact ⟨returned, .inst ⟨2⟩, built, rfl⟩

/-- The way back from the rule is an instruction of the program. -/
theorem finished_program_stays_in_bounds_called :
    let task : Task Unit Tree := ⟨callLiteral, .ofBytes #[0x61], Tree.factory⟩
    ∃ now inst, Visits task .initial now ∧ now.place = ⟨4⟩ ∧ now.machine.frames.size = 2 ∧
      InBounds task now inst := by
  intro task
  let m₀ : Machine Unit Tree := (initial callLiteral .initial ()).push (.ret .exitOk)
  let m₁ := m₀.push (.ret .exitOk)
  let m₂ := m₁.advance 1
  have small : task.input.size < wordLimit := by decide
  have entered : Visits task .initial ⟨⟨2⟩, m₀⟩ := .enter ⟨2⟩ (by decide) ()
  have called : Visits task .initial ⟨⟨3⟩, m₁⟩ := .step entered rfl
  have matched : Visits task .initial ⟨⟨4⟩, m₂⟩ := .step called rfl
  obtain ⟨inst, bounds⟩ :=
    (finished_program_stays_in_bounds callLiteral_finished small .initial).2 _ matched
  exact ⟨_, inst, matched, rfl, rfl, bounds⟩

end Machine

end Packrat
