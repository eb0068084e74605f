/-
Repetition makes progress. The positions saved in choice points and by the code itself grow from
the bottom of the stack to its top, and the cursor lies behind all of them; only an instruction
that moves the cursor by a given amount could break this. A guard or the check of a repetition
compares its choice point with the cursor for equality only, but in this order a difference is an
advance, and the input leaves room for so many of them.
-/

import Packrat.Proofs.Machine.Provenance

namespace Packrat

def Frame.savedPosition? : Frame → Option Nat
  | .choice point => some point.pos
  | .position pos => some pos
  | _ => none

def Op.moves {t : Type} : Op t → Bool
  | .control (.move _) => true
  | _ => false

/-- No instruction moves the cursor by a given amount. -/
def Program.Moveless (program : Program) : Prop := ∀ inst ∈ program.insts, inst.op.moves = false

theorem Program.Moveless.op {program : Program} (moveless : program.Moveless) {place : InstId}
    {inst : Inst InstId} (found : program.inst? place = some inst) : inst.op.moves = false :=
  moveless inst (Array.mem_of_getElem? found)

namespace Machine

variable {σ τ : Type} {task : Task σ τ} {options : Options} {past earlier later : List (Config σ τ)}
  {now : Config σ τ} {m m' : Machine σ τ}

/-! ### The order of positions -/

/-- The saved positions grow from the bottom of the stack to its top, up to the cursor, and neither
the cursor nor what a memoized match consumes leads beyond the input. -/
structure Paced (input : Input) (m : Machine σ τ) : Prop where
  ordered : Ascends Frame.savedPosition? id m.pos m.frames.toList
  within : m.pos ≤ input.size
  memo : ∀ pos id state entry, (m.memo.find pos id state).1 = some entry →
    entry.failed = false → pos + entry.consumed ≤ input.size

namespace Paced

variable {input : Input} {index : Nat} {point : ChoicePoint}

theorem saved_le (paced : Paced input m) {frame : Frame} {pos : Nat}
    (found : m.frames.toList[index]? = some frame) (saved : frame.savedPosition? = some pos) :
    pos ≤ m.pos :=
  paced.ordered.bound pos (List.mem_filterMap.mpr ⟨frame, List.mem_of_getElem? found, saved⟩)

/-- Frames are dropped from the top, and the cursor is not taken below those that are left. -/
theorem lower (paced : Paced input m) {height : Nat}
    (frames : m'.frames.toList = m.frames.toList.take height)
    (ordered : Ascends Frame.savedPosition? id m'.pos (m.frames.toList.take height))
    (within : m'.pos ≤ m.pos) (memo : m'.memo = m.memo) : Paced input m' := by
  refine ⟨?_, Nat.le_trans within paced.within, ?_⟩
  · rw [frames]
    exact ordered
  · rw [memo]
    exact paced.memo

theorem drop (paced : Paced input m) : Paced input m.drop :=
  paced.lower (drop_frames m) (paced.ordered.part _) (Nat.le_refl _) rfl

theorem cut (paced : Paced input m) (index : Nat) (point : ChoicePoint) :
    Paced input (m.cut index point) :=
  paced.lower Array.toList_shrink (paced.ordered.part _) (Nat.le_refl _) rfl

/-- The position in a frame that is pushed is the one of the cursor. -/
theorem push (paced : Paced input m) {frame : Frame}
    (top : ∀ pos, frame.savedPosition? = some pos → pos = m.pos) : Paced input (m.push frame) := by
  have ordered : Ascends Frame.savedPosition? id m.pos (m.push frame).frames.toList := by
    unfold Machine.push
    rw [Array.toList_push]
    exact paced.ordered.concat top
  exact { paced with ordered := ordered }

theorem pushChoice (paced : Paced input m) (failure : InstId) :
    Paced input (m.pushChoice failure) := by
  let point : ChoicePoint := ⟨failure, m.pos, m.log.mark, m.bindings.save, m.catchIndex⟩
  have pushed : Paced input (m.push (.choice point)) := by
    refine paced.push fun pos saved => ?_
    cases saved
    rfl
  exact { pushed with }

theorem advance (paced : Paced input m) {length : Nat} (within : m.pos + length ≤ input.size) :
    Paced input (m.advance length) where
  ordered := paced.ordered.raise (Nat.le_add_right _ _)
  within := within
  memo := paced.memo

end Paced

/-! ### What a step keeps -/

theorem Update.paced {op : Op InstId} (update : Update task op m m') (still : op.moves = false)
    (renews : ¬ (op = .control .guard ∨ op = .control .step)) (paced : Paced task.input m) :
    Paced task.input m' := by
  have unsaved (frame : Frame) (none : frame.savedPosition? = none) (pos : Nat)
      (saved : frame.savedPosition? = some pos) : pos = m.pos := by
    rw [none] at saved
    cases saved
  cases update with
  | save => exact paced.push fun pos saved => by cases saved; rfl
  | back pos pops =>
      exact paced.lower (drop_frames m) (paced.ordered.below pops.found rfl)
        (paced.saved_le pops.found rfl) rfl
  | shift amount pos same moved =>
      rw [same] at still
      cases still
  | call after member => exact paced.push (unsaved _ rfl)
  | drop frame pops => exact paced.drop
  | count left => exact paced.push (unsaved _ rfl)
  | alt failure same => exact paced.pushChoice failure
  | renew index point checks caught found moved => exact absurd checks renews
  | cut index point caught found => exact paced.cut index point
  | consume length bounded =>
      have here := paced.within
      exact paced.advance (by omega)
  | append intent => exact { paced with }
  | link label child => exact { paced with }
  | checkpoint => exact paced.push (unsaved _ rfl)
  | emit mark label pops => exact { paced.drop with }
  | enter => exact paced.push (unsaved _ rfl)
  | leave mark pops => exact { paced.drop with }
  | define table value => exact { paced with }
  | mask table => exact { paced with }
  | look id state => exact { paced with }
  | tick id change looks => exact { paced with }
  | skip id state entry found matched => exact paced.advance (paced.memo _ _ _ _ found matched)
  | store id info index choice result stores known caught found =>
      refine { paced.cut index choice with memo := ?_ }
      intro pos point state entry answers matched
      rcases MemoTable.find_record answers with ⟨rfl, _, rfl⟩ | before
      · rw [← Array.getElem?_toList] at found
        have start : choice.pos ≤ m.pos := paced.saved_le found rfl
        have here := paced.within
        change choice.pos + (m.pos - choice.pos) ≤ task.input.size
        omega
      · exact paced.memo pos point state entry before matched
  | storeFailure id info same known =>
      refine { paced with memo := ?_ }
      intro pos point state entry answers matched
      rcases MemoTable.find_record answers with ⟨_, _, rfl⟩ | before
      · cases matched
      · exact paced.memo pos point state entry before matched

theorem Failure.paced {input : Input} (failure : Failure m m') (paced : Paced input m) :
    Paced input m' := by
  cases failure with
  | idle => exact { paced with }
  | resume index point caught found =>
      rw [← Array.getElem?_toList] at found
      exact paced.lower Array.toList_shrink (paced.ordered.below found rfl)
        (paced.saved_le found rfl) rfl

/-- A choice point on top of the stack is renewed as if it were dropped and pushed again. -/
theorem Paced.recheck {input : Input} (paced : Paced input m)
    (top : ∀ index, m.catchIndex = some index → index + 1 = m.frames.size) (place next : InstId)
    (site : Site) : Paced input (reached (settle place (m.recheck site next))) := by
  cases innermost : m.innermost site with
  | error fault =>
      simp only [Machine.recheck, innermost]
      exact paced
  | ok answer =>
      obtain ⟨index, point⟩ := answer
      obtain ⟨caught, choice⟩ := innermost_ok innermost
      by_cases idle : point.pos = m.pos
      · simp only [Machine.recheck, innermost, idle, if_true]
        exact fail_keeps (fun _ _ paced failure => failure.paced paced) paced
      · simp only [Machine.recheck, innermost, idle, if_false]
        change Paced input (m.renewChoice index point)
        rw [renewChoice_top (top index caught) caught choice]
        exact (paced.cut index point).pushChoice point.failure

theorem Paced.step (paced : Paced task.input now.machine) (moveless : task.program.Moveless)
    (disciplined : Disciplined task.program now) :
    Paced task.input (reached (now.machine.step task now.place)) := by
  cases found : task.program.inst? now.place with
  | none =>
      simp only [Machine.step, found]
      exact paced
  | some inst =>
      by_cases checks : inst.op = .control .guard ∨ inst.op = .control .step
      · obtain ⟨op, next⟩ := inst
        have top (op : ControlOp InstId) (checks : op = .guard ∨ op = .step)
            (found : task.program.inst? now.place = some ⟨.control op, next⟩) (index : Nat)
            (caught : now.machine.catchIndex = some index) :
            index + 1 = now.machine.frames.size := disciplined.top checks found caught
        rw [step_eq found]
        rcases checks with same | same
        · cases same
          exact paced.recheck (top .guard (.inl rfl) found) _ _ _
        · cases same
          exact paced.recheck (top .step (.inr rfl) found) _ _ _
      · refine step_keeps (fun inst' found' m m' paced update => ?_)
          (fun m m' paced failure => failure.paced paced) paced
        rw [found] at found'
        cases found'
        exact update.paced (moveless.op found) checks paced

theorem Execution.paced (execution : Execution task options past now)
    (moveless : task.program.Moveless)
    (disciplined : ∀ config ∈ past, Disciplined task.program config) :
    Paced task.input now.machine := by
  refine execution.keeps (fun past m => (∀ config ∈ past, Disciplined task.program config) →
    Paced task.input m) ?_ ?_ ?_ disciplined
  · intro nodes _
    have fresh : Paced task.input (initial task.program options nodes : Machine σ τ) := by
      refine ⟨⟨.nil, fun mark member => by cases member⟩, Nat.zero_le _, ?_⟩
      intro pos id state entry answers
      rw [initial, MemoTable.find_ofOptions] at answers
      cases answers
    exact fresh.push fun pos saved => by cases saved
  · intro past now _ ih disciplined
    have paced := ih fun config member => disciplined config (List.mem_cons_of_mem now member)
    exact paced.step moveless (disciplined now List.mem_cons_self)
  · intro past m reason ih disciplined
    have left : Paced task.input (m.leave reason) := by
      cases reason <;> exact { ih disciplined with }
    exact left.push fun pos saved => by cases saved

/-! ### Renewals -/

def outrun? (m : Machine σ τ) : Option Nat :=
  m.catchIndex.filter fun index =>
    match m.frames[index]? with
    | some (.choice point) => decide (point.pos ≠ m.pos)
    | _ => false

/-- The choice point that the next instruction renews: a guard or the check of a repetition renews
the innermost one, unless it fails. -/
def renewed? (program : Program) (now : Config σ τ) : Option Nat :=
  match program.inst? now.place with
  | some ⟨.control .guard, _⟩ => now.machine.outrun?
  | some ⟨.control .step, _⟩ => now.machine.outrun?
  | _ => none

theorem outrun?_eq_some {index : Nat} (outrun : m.outrun? = some index) :
    m.catchIndex = some index ∧
      ∃ point, m.frames[index]? = some (.choice point) ∧ point.pos ≠ m.pos := by
  obtain ⟨caught, left⟩ := Option.filter_eq_some_iff.mp outrun
  cases found : m.frames[index]? with
  | none => rw [found] at left; cases left
  | some frame =>
      rw [found] at left
      cases frame with
      | choice point => exact ⟨caught, point, rfl, of_decide_eq_true left⟩
      | ret | position | tree | bindings | count => cases left

theorem outrun?_eq {index : Nat} {point : ChoicePoint} (caught : m.catchIndex = some index)
    (found : m.frames[index]? = some (.choice point)) (moved : point.pos ≠ m.pos) :
    m.outrun? = some index := by
  refine Option.filter_eq_some_iff.mpr ⟨caught, ?_⟩
  simp only [found]
  exact decide_eq_true moved

section Renewals

variable {op : ControlOp InstId} {next target : InstId} {index : Nat}

theorem renewed?_cases (renewed : renewed? task.program now = some index) :
    ∃ op next, (op = .guard ∨ op = .step) ∧
      task.program.inst? now.place = some ⟨.control op, next⟩ ∧
      now.machine.outrun? = some index := by
  unfold renewed? at renewed
  split at renewed
  · next next found => exact ⟨.guard, next, .inl rfl, found, renewed⟩
  · next next found => exact ⟨.step, next, .inr rfl, found, renewed⟩
  · cases renewed

/-- What sets a choice point that is on the stack is a renewal. -/
theorem renewed?_of_sets (sets : Sets task.program now index)
    (standing : index < now.machine.frames.size) : renewed? task.program now = some index := by
  cases sets with
  | alt found => exact absurd standing (Nat.lt_irrefl _)
  | renew checks found caught choice moved =>
      unfold renewed?
      rw [found]
      rcases checks with rfl | rfl <;> exact outrun?_eq caught choice moved

/-- A guard or a check that does not fail moves its choice point on. -/
theorem Paced.renewed {input : Input} {site : Site} (paced : Paced input m)
    (went : m.recheck site next = .goto target m') :
    ∃ index point point', m.catchIndex = some index ∧ m.frames[index]? = some (.choice point) ∧
      m'.frames[index]? = some (.choice point') ∧ point.pos < point'.pos := by
  unfold Machine.recheck at went
  cases innermost : m.innermost site with
  | error fault => rw [innermost] at went; cases went
  | ok answer =>
      obtain ⟨index, point⟩ := answer
      obtain ⟨caught, choice⟩ := innermost_ok innermost
      by_cases idle : point.pos = m.pos
      · simp only [innermost, idle, if_true] at went
        cases went
      · simp only [innermost, idle, if_false] at went
        cases went
        have within := (Array.getElem?_eq_some_iff.mp choice).1
        refine ⟨index, point, _, caught, choice, Array.getElem?_setIfInBounds_self_of_lt within, ?_⟩
        rw [← Array.getElem?_toList] at choice
        exact Nat.lt_of_le_of_ne (paced.saved_le choice rfl) idle

end Renewals

/-- Every renewal of a choice point lies behind the one before. The induction is on the states
since it was pushed; where it is renewed, the position saved in it is the one of the last renewal,
and the cursor has passed that. -/
theorem Execution.renewals_advance {pushed : Config σ τ} {failure next : InstId}
    (execution : Execution task options (later ++ pushed :: earlier) now)
    (moveless : task.program.Moveless)
    (disciplined : ∀ config ∈ later ++ pushed :: earlier, Disciplined task.program config)
    (pushes : task.program.inst? pushed.place = some ⟨.control (.alt failure), next⟩)
    (standing : ∀ config ∈ later, pushed.machine.frames.size < config.machine.frames.size) :
    ∃ origin, Origin task.program (later ++ pushed :: earlier) pushed.machine.frames.size origin ∧
      pushed.machine.pos + later.countP (fun config =>
          renewed? task.program config = some pushed.machine.frames.size) ≤ origin.machine.pos := by
  induction later generalizing now with
  | nil =>
      refine ⟨pushed, ⟨[], earlier, rfl, .alt pushes, fun other member => by cases member⟩, ?_⟩
      exact Nat.le_refl _
  | cons config rest ih =>
      have behind : ∀ other ∈ rest ++ pushed :: earlier, Disciplined task.program other :=
        fun other member => disciplined other (List.mem_cons_of_mem config member)
      have stands := standing config List.mem_cons_self
      have before := execution.tail
      obtain ⟨origin, set, advanced⟩ := ih before behind fun other member =>
        standing other (List.mem_cons_of_mem config member)
      rw [List.countP_cons]
      by_cases renewed : renewed? task.program config = some pushed.machine.frames.size
      · rw [if_pos (decide_eq_true renewed)]
        obtain ⟨op, next', checks, found, outrun⟩ := renewed?_cases renewed
        obtain ⟨caught, point, choice, moved⟩ := outrun?_eq_some outrun
        refine ⟨config, ⟨[], _, rfl, .renew checks found caught choice moved,
          fun other member => by cases member⟩, ?_⟩
        rw [← Array.getElem?_toList] at choice
        obtain ⟨live, held⟩ := before.held behind
        obtain ⟨origin', set', kept⟩ := held.origins _ point choice
        have saved : point.pos = origin.machine.pos := by
          rw [kept.pos, Origin.unique set' set]
        have reached : point.pos ≤ config.machine.pos :=
          (before.paced moveless behind).saved_le choice rfl
        omega
      · rw [if_neg (by rw [decide_eq_true_iff]; exact renewed)]
        refine ⟨origin, set.keep fun sets => renewed (renewed?_of_sets sets stands), ?_⟩
        exact advanced

/-! ### Progress -/

/-- Repetition makes progress in a program that nowhere moves the cursor by a given amount, as long
as guards and checks find their choice points on top of the stack. The saved positions grow from
the bottom of the stack to its top and up to the cursor; a guard or a check that does not fail
moves its choice point on; and while a choice point stands it is renewed no more often than there
are bytes behind the position where it was pushed. -/
theorem repetition_makes_progress (moveless : task.program.Moveless)
    (execution : Execution task options past now)
    (disciplined : ∀ config ∈ past, Disciplined task.program config) :
    (now.machine.frames.toList.filterMap Frame.savedPosition?).Pairwise (· ≤ ·) ∧
    (∀ pos ∈ now.machine.frames.toList.filterMap Frame.savedPosition?, pos ≤ now.machine.pos) ∧
    now.machine.pos ≤ task.input.size ∧
    (∀ op next target m, (op = .guard ∨ op = .step) →
      now.machine.exec task now.place ⟨.control op, next⟩ = .goto target m →
      ∃ index point point', now.machine.catchIndex = some index ∧
        now.machine.frames[index]? = some (.choice point) ∧
        m.frames[index]? = some (.choice point') ∧ point.pos < point'.pos) ∧
    ∀ later pushed earlier failure next, past = later ++ pushed :: earlier →
      task.program.inst? pushed.place = some ⟨.control (.alt failure), next⟩ →
      (∀ config ∈ later, pushed.machine.frames.size < config.machine.frames.size) →
      later.countP (fun config =>
          renewed? task.program config = some pushed.machine.frames.size) ≤
        task.input.size - pushed.machine.pos := by
  have paced := execution.paced moveless disciplined
  refine ⟨paced.ordered.order, paced.ordered.bound, paced.within, ?_, ?_⟩
  · intro op next target m checks went
    rcases checks with rfl | rfl <;> exact paced.renewed went
  · intro later pushed earlier failure next split pushes standing
    subst split
    obtain ⟨origin, set, advanced⟩ :=
      execution.renewals_advance moveless disciplined pushes standing
    obtain ⟨later', earlier', split, _⟩ := set
    have before : Execution task options earlier' origin := execution.before split
    have behind : ∀ config ∈ earlier', Disciplined task.program config := by
      intro config member
      apply disciplined
      rw [split]
      exact List.mem_append_right later' (List.mem_cons_of_mem origin member)
    have within := (before.paced moveless behind).within
    omega

/-- The repetition goes round once for each byte. -/
theorem repetition_makes_progress_tags :
    let task : Task Unit Tree := ⟨repeatTags, .ofBytes #[0x61], Tree.factory⟩
    ∃ later pushed now, Execution task .initial (later ++ [pushed]) now ∧ later.length = 4 ∧
      (now.machine.frames.toList.filterMap Frame.savedPosition?) = [1] ∧
      later.countP (fun config => renewed? repeatTags config = some 1) = 1 ∧
      later.countP (fun config => renewed? repeatTags config = some 1) ≤
        task.input.size - pushed.machine.pos := by
  intro task
  have execution : Execution task .initial tagsPast ⟨⟨4⟩, tagged tagsSecond⟩ := tagsPast_execution
  have moveless : repeatTags.Moveless := by
    unfold Program.Moveless
    decide
  obtain ⟨_, _, _, _, renewals⟩ :=
    repetition_makes_progress moveless execution tagsPast_disciplined
  have standing : ∀ config ∈ tagsPast.take 4, 1 < config.machine.frames.size := by
    unfold tagsPast
    simp only [List.take_succ_cons, List.take_zero, List.forall_mem_cons]
    exact ⟨by decide, by decide, by decide, by decide, fun config member => by cases member⟩
  exact ⟨tagsPast.take 4, _, _, execution, rfl, rfl, rfl,
    renewals (tagsPast.take 4) _ [] .exitOk ⟨3⟩ rfl rfl standing⟩

end Machine

end Packrat
