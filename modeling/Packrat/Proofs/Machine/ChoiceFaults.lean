/-
What the chain of choice points means for faults. An instruction that looks for a choice point
finds one or finds that there is none, and never another frame in its place. Nothing is asked of
the program: it may be as badly balanced as it likes.
-/

import Packrat.Proofs.Machine.ChoicePops
import Packrat.Proofs.Machine.ChoiceWalk

namespace Packrat

def Fault.expected? : Fault → Option FrameKind
  | .frameMismatch _ expected _ => some expected
  | _ => none

namespace Machine

variable {σ τ : Type} {m m' : Machine σ τ}

def SparesChoice : Effect σ τ → Prop
  | .halt (.fault fault) _ => fault.expected? ≠ some .choice
  | _ => True

theorem popAs_spares {α : Type} {read : Frame → Option α} {expected : FrameKind} {site : Site}
    {fault : Fault} (popped : m.popAs read expected site = .error (fault, m'))
    (other : expected ≠ .choice) : SparesChoice (.halt (.fault fault) m' : Effect σ τ) := by
  have asked : fault.expected? = some expected := by
    unfold popAs at popped
    cases top : m.top site expected with
    | error cause =>
        rw [top] at popped
        cases popped
        unfold Machine.top at top
        dsimp only at top
        split at top
        · cases top
          rfl
        · split at top
          · cases top
            rfl
          · cases top
    | ok frame =>
        rw [top] at popped
        dsimp only at popped
        split at popped
        · cases popped
        · cases popped
          rfl
  intro same
  rw [asked, Option.some.injEq] at same
  exact other same

theorem innermost_spares (chained : m.Chained) {site : Site} {fault : Fault}
    (failed : m.innermost site = .error fault) :
    SparesChoice (.halt (.fault fault) m' : Effect σ τ) := by
  cases caught : m.catchIndex with
  | none =>
      simp only [innermost, caught] at failed
      cases failed
      intro same
      cases same
  | some index =>
      obtain ⟨point, found⟩ := chained.found caught
      rw [innermost_eq caught found] at failed
      cases failed

section Groups

variable (task : Task σ τ) (site : Site) (next : InstId)

theorem require_spares (condition : Bool) (next : InstId) (m : Machine σ τ) :
    SparesChoice (m.require condition next) := by
  cases condition <;> trivial

theorem recheck_spares (chained : m.Chained) : SparesChoice (m.recheck site next) := by
  unfold recheck
  cases innermost : m.innermost site with
  | error fault => exact innermost_spares chained innermost
  | ok answer =>
      dsimp only
      split <;> trivial

theorem control_spares (chained : m.Chained) (op : ControlOp InstId) :
    SparesChoice (m.control site next op) := by
  cases op with
  | nop | exit | pos | jump | call | alt | fail => trivial
  | back =>
      simp only [control, popPosition]
      cases popped : m.popAs Frame.position? .position site with
      | error answer => exact popAs_spares popped (by decide)
      | ok answer => trivial
  | move shift =>
      simp only [control]
      cases shiftedFrom m.pos shift with
      | none =>
          intro same
          cases same
      | some pos => trivial
  | ret =>
      simp only [control]
      cases popped : m.popAs Frame.ret? .ret site with
      | error answer => exact popAs_spares popped (by decide)
      | ok answer => trivial
  | succ =>
      simp only [control]
      cases innermost : m.innermost site with
      | error fault => exact innermost_spares chained innermost
      | ok answer => trivial
  | guard => exact recheck_spares site next chained
  | step => exact recheck_spares site next chained

theorem test_spares (input : Input) (m : Machine σ τ) (pattern : Pattern ByteSet Bytes)
    (policy : Policy) : SparesChoice (m.test input next pattern policy) := by
  cases policy with
  | many => trivial
  | once | absent | optional =>
      simp only [test]
      cases pattern.length? input m.pos <;> trivial

theorem logAt_spares (m : Machine σ τ) (shift : Int) (intent : Nat → Intent τ) :
    SparesChoice (m.logAt site next shift intent) := by
  unfold logAt
  cases shiftedFrom m.pos shift with
  | none =>
      intro same
      cases same
  | some pos => trivial

theorem treeStep_spares (m : Machine σ τ) (op : TreeOp) :
    SparesChoice (m.treeStep task site next op) := by
  cases op with
  | node shift => exact logAt_spares site next m shift .begin
  | fold shift label => exact logAt_spares site next m shift fun pos => .leftFold pos label
  | tag | push | pop | checkpoint => trivial
  | close shift tag value =>
      simp only [treeStep]
      cases shiftedFrom m.pos shift with
      | none =>
          intro same
          cases same
      | some pos => cases literalValue? task.program value <;> trivial
  | replace value =>
      simp only [treeStep]
      cases task.program.literal? value <;> trivial
  | emit label =>
      simp only [treeStep]
      cases popped : m.popAs Frame.tree? .tree site with
      | error answer => exact popAs_spares popped (by decide)
      | ok answer => trivial

theorem requireCaptured_spares (input : Input) (m : Machine σ τ)
    (condition : Bindings → Bytes → Bool) :
    SparesChoice (m.requireCaptured input site next condition) := by
  simp only [requireCaptured, popPosition]
  cases popped : m.popAs Frame.position? .position site with
  | error answer => exact popAs_spares popped (by decide)
  | ok answer => exact require_spares _ next _

theorem bindingStep_spares (m : Machine σ τ) (op : BindingOp) :
    SparesChoice (m.bindingStep task site next op) := by
  cases op with
  | enter | mask => trivial
  | leave =>
      simp only [bindingStep]
      cases popped : m.popAs Frame.bindings? .bindings site with
      | error answer => exact popAs_spares popped (by decide)
      | ok answer => trivial
  | define table =>
      simp only [bindingStep, popPosition]
      cases popped : m.popAs Frame.position? .position site with
      | error answer => exact popAs_spares popped (by decide)
      | ok answer => trivial
  | bound table => exact require_spares _ next m
  | holds table lit =>
      simp only [bindingStep]
      cases task.program.literal? lit with
      | none => trivial
      | some bytes => exact require_spares _ next m
  | consume table =>
      simp only [bindingStep]
      cases m.bindings.lookup table with
      | none => trivial
      | some bytes =>
          dsimp only
          split <;> trivial
  | isLatest table =>
      exact requireCaptured_spares site next task.input m fun bindings bytes =>
        bindings.isLatest table bytes
  | isVisible table =>
      exact requireCaptured_spares site next task.input m fun bindings bytes =>
        bindings.contains table bytes

theorem countStep_spares (input : Input) (m : Machine σ τ) (op : CountOp InstId) :
    SparesChoice (m.countStep input site next op) := by
  cases op with
  | scan mask shift =>
      simp only [countStep, popPosition]
      cases popped : m.popAs Frame.position? .position site with
      | error answer => exact popAs_spares popped (by decide)
      | ok answer => trivial
  | dec done =>
      have mismatched : SparesChoice
          (.halt (.fault (m.mismatch site .count (m.frames.size - 1))) m : Effect σ τ) := by
        intro same
        cases same
      simp only [countStep]
      cases m.frames.back? with
      | none => exact mismatched
      | some frame =>
          cases frame with
          | count left =>
              dsimp only
              split <;> trivial
          | choice | ret | position | tree | bindings => exact mismatched

theorem storeMatch_spares (chained : m.Chained) (id : MemoId) (info : MemoPoint)
    (result : Option τ) : SparesChoice (m.storeMatch site next id info result) := by
  unfold storeMatch
  cases innermost : m.innermost site with
  | error fault => exact innermost_spares chained innermost
  | ok answer => trivial

theorem lookup_spares (m : Machine σ τ) (skip : InstId) (id : MemoId) (info : MemoPoint)
    (label : Option Symbol) : SparesChoice (m.lookup next skip id info label) := by
  unfold lookup
  dsimp only
  split
  · trivial
  · split
    · trivial
    · split <;> trivial

theorem memoStep_spares (chained : m.Chained) (op : MemoOp InstId) :
    SparesChoice (m.memoStep task.program site next op) := by
  unfold memoStep
  cases (Op.memo op).memoId? with
  | none => trivial
  | some id =>
      dsimp only
      cases task.program.memoPoint? id with
      | none => trivial
      | some info =>
          cases op with
          | lookup point skip => exact lookup_spares next m skip id info none
          | treeLookup point label skip => exact lookup_spares next m skip id info (some label)
          | store point => exact storeMatch_spares site next chained id info none
          | treeStore point => exact storeMatch_spares site next chained id info _
          | storeFailure point => trivial

end Groups

theorem exec_spares (chained : m.Chained) (task : Task σ τ) (place : InstId)
    (inst : Inst InstId) : SparesChoice (m.exec task place inst) := by
  obtain ⟨op, next⟩ := inst
  cases op with
  | control op => exact control_spares _ next chained op
  | test pattern policy =>
      simp only [exec]
      cases task.program.pattern? pattern with
      | none => trivial
      | some held => exact test_spares next task.input m held policy
  | dispatch table consume =>
      simp only [exec]
      cases task.program.dispatch? table with
      | none => trivial
      | some held =>
          simp only [dispatch]
          cases held.target? (task.input.byteAt? m.pos) <;> trivial
  | tree op => exact treeStep_spares task _ next m op
  | bindings op => exact bindingStep_spares task _ next m op
  | count op => exact countStep_spares _ next task.input m op
  | memo op => exact memoStep_spares task _ next chained op

/-! ### Every state of an execution -/

variable {task : Task σ τ} {options : Options} {past : List (Config σ τ)} {now : Config σ τ}

/-- The chain of choice points is complete before and after an instruction, and so the instruction
finds the choice points that it needs and keeps those that it does not own. -/
structure ChainHolds (task : Task σ τ) (now : Config σ τ) : Prop where
  before : ∃ places, now.machine.ChainComplete places
  after : ∃ places, (reached (now.machine.step task now.place)).ChainComplete places
  /-- No fault is about a choice point that is missing where one is expected. -/
  faults : ∀ fault m, now.machine.step task now.place = .halt (.fault fault) m →
    fault.expected? ≠ some .choice
  /-- To fail is never a fault of its own. -/
  fails : ∀ inst m, task.program.inst? now.place = some inst →
    now.machine.exec task now.place inst = .fail m →
    ∃ target m', m.fail now.place = .goto target m'
  pops : ∀ inst, task.program.inst? now.place = some inst → inst.op.popsTop = true →
    KeepsChoices now.machine (Machine.after (now.machine.exec task now.place inst))

theorem exec_chained (chained : m.Chained) (task : Task σ τ) (place : InstId)
    (inst : Inst InstId) : (after (m.exec task place inst)).Chained :=
  updates_keep (fun _ _ chained update => chained.update update)
    (exec_leaves task place inst m).updates chained

/-- The chain of choice points is complete at all times. From whichever instructions a machine is
run, how often, and also after faults: following the chain from the innermost choice point meets
every choice point on the stack, from the topmost to the bottommost, each once, and ends. Hence no
instruction faults over a missing choice point, no failure faults, and no ordinary pop removes a
choice point. -/
theorem choice_chain_complete (execution : Execution task options past now) :
    ChainHolds task now := by
  have chained := execution.chained
  have failing {inst : Inst InstId} {m : Machine σ τ}
      (failed : now.machine.exec task now.place inst = .fail m) : m.Chained := by
    have left := exec_chained chained task now.place inst
    rwa [failed] at left
  refine ⟨⟨_, chained.complete⟩, ⟨_, (chained.step task now.place).complete⟩, ?_, ?_, ?_⟩
  · intro fault m halted
    cases found : task.program.inst? now.place with
    | none =>
        simp only [Machine.step, found] at halted
        cases halted
    | some inst =>
        rw [step_eq found] at halted
        have spares := exec_spares chained task now.place inst
        cases effect : now.machine.exec task now.place inst with
        | goto target m₁ =>
            rw [effect] at halted
            cases halted
        | fail m₁ =>
            obtain ⟨target, m₂, goes⟩ := (failing effect).fail now.place
            rw [effect] at halted
            change m₁.fail now.place = _ at halted
            rw [goes] at halted
            cases halted
        | halt reason m₁ =>
            rw [effect] at halted spares
            cases halted
            exact spares
  · intro inst m _ failed
    exact (failing failed).fail now.place
  · intro inst _ pops
    exact exec_keeps_choices chained task now.place pops

/-- Code that saves a position under a choice point and takes it for a way back. -/
def unbalanced : Program where
  insts := #[⟨.control (.exit false), .exitFail⟩, ⟨.control (.exit true), .exitOk⟩,
    ⟨.control (.alt .exitOk), ⟨3⟩⟩, ⟨.control .pos, ⟨4⟩⟩, ⟨.control .ret, .exitFail⟩]
  sets := .empty
  literals := .empty
  dispatch := #[]
  memoPoints := #[]
  symbols := .initial
  start := ⟨2⟩

/-- The first run faults and leaves its choice point behind. The second run pushes another one
above it, with the way back of the run between the two. -/
theorem choice_chain_complete_after_fault :
    let task : Task Unit Tree := ⟨unbalanced, .ofBytes #[], Tree.factory⟩
    ∃ past now, Execution task .initial past now ∧ now.machine.frames.size = 5 ∧
      now.machine.catchIndex = some 3 ∧ ChainHolds task now := by
  intro task
  let m₀ : Machine Unit Tree := (initial unbalanced .initial ()).push (.ret .exitOk)
  let m₁ := m₀.pushChoice .exitOk
  let m₂ := m₁.push (.position 0)
  let m₃ := m₁.push (.ret .exitOk)
  let m₄ := m₃.pushChoice .exitOk
  let m₅ := m₄.push (.position 0)
  have entered : Execution task .initial [] ⟨⟨2⟩, m₀⟩ := .enter ⟨2⟩ ()
  have chosen : Execution task .initial _ ⟨⟨3⟩, m₁⟩ := .step entered rfl
  have saved : Execution task .initial _ ⟨⟨4⟩, m₂⟩ := .step chosen rfl
  have mistaken : m₂.step task ⟨4⟩ = .halt
      (.fault (.frameMismatch ⟨⟨4⟩, .control .ret⟩ .ret (some .position))) m₁ := rfl
  have again : Execution task .initial _ ⟨⟨2⟩, m₃⟩ :=
    .again saved mistaken (by intro same; cases same) ⟨2⟩
  have chosen' : Execution task .initial _ ⟨⟨3⟩, m₄⟩ := .step again rfl
  have execution : Execution task .initial _ ⟨⟨4⟩, m₅⟩ := .step chosen' rfl
  exact ⟨_, _, execution, rfl, rfl, choice_chain_complete execution⟩

end Machine

end Packrat
