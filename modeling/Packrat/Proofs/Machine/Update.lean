/-
All that one instruction can do. It makes a few elementary updates of the state and then goes on,
fails or halts. `exec_leaves` says so once for every operation; what a run keeps is shown for each
update, and where control can go is read off `Goes`.
-/

import Packrat.Proofs.Code.Within
import Packrat.Proofs.Input.Match
import Packrat.Proofs.Machine.Edit
import Packrat.Proofs.Tree.Extent

namespace Packrat

def Op.lookedUp? {t : Type} : Op t → Option MemoId
  | .memo (.lookup point _) => some point
  | .memo (.treeLookup point _ _) => some point
  | _ => none

def Op.placement? {t : Type} : Op t → Option Int
  | .tree (.node shift) => some shift
  | .tree (.close shift _ _) => some shift
  | .tree (.fold shift _) => some shift
  | _ => none

def Op.opensScope {t : Type} : Op t → Bool
  | .bindings .enter => true
  | .bindings (.mask _) => true
  | _ => false

namespace Machine

variable {σ τ : Type}

/-! ### Elementary updates -/

def matchEntry (m : Machine σ τ) (info : MemoPoint) (choice : ChoicePoint) (result : Option τ) :
    MemoEntry τ :=
  ⟨false, m.pos - choice.pos, result,
    if info.stateful then m.bindings.stateAt choice.bindings else 0⟩

def failureEntry (m : Machine σ τ) (info : MemoPoint) : MemoEntry τ :=
  ⟨true, 0, none, (m.memoState info).getD 0⟩

def StoresMatch (m : Machine σ τ) (op : Op InstId) (id : MemoId) (result : Option τ) : Prop :=
  (op = .memo (.store id) ∧ result = none) ∨
    (op = .memo (.treeStore id) ∧ result = m.log.latestLinked)

def Places (m : Machine σ τ) (op : Op InstId) (pos : Nat) : Prop :=
  ∃ shift, op.placement? = some shift ∧ shiftedFrom m.pos shift = some pos

/-- An operation logs an intent that attaches no node, and whose position is the shifted cursor. -/
structure Logs (m : Machine σ τ) (op : Op InstId) (intent : Intent τ) : Prop where
  placed : ∀ pos, intent.position? = some pos → m.Places op pos
  bare : intent.child? = none

def Recalls (m : Machine σ τ) (node : τ) : Prop :=
  ∃ pos id state entry, (m.memo.find pos id state).1 = some entry ∧ entry.result = some node

inductive Update (task : Task σ τ) (op : Op InstId) (m : Machine σ τ) : Machine σ τ → Prop
  | save : Update task op m (m.push (.position m.pos))
  | back (pos : Nat) (pops : m.Pops (.position pos)) (same : op = .control .back) :
      Update task op m (m.drop.rollback pos)
  | shift (amount : Int) (pos : Nat) (same : op = .control (.move amount))
      (moved : shiftedFrom m.pos amount = some pos) : Update task op m (m.rollback pos)
  | call (after : InstId) (member : after ∈ op.targets) : Update task op m (m.push (.ret after))
  | drop (frame : Frame) (pops : m.Pops frame) : Update task op m m.drop
  | count (left : UInt64) : Update task op m (m.push (.count left))
  | alt (failure : InstId) (same : op = .control (.alt failure)) :
      Update task op m (m.pushChoice failure)
  | renew (index : Nat) (point : ChoicePoint) (checks : op = .control .guard ∨ op = .control .step)
      (caught : m.catchIndex = some index) (found : m.frames[index]? = some (.choice point))
      (moved : point.pos ≠ m.pos) : Update task op m (m.renewChoice index point)
  | cut (index : Nat) (point : ChoicePoint) (caught : m.catchIndex = some index)
      (found : m.frames[index]? = some (.choice point)) : Update task op m (m.cut index point)
  | consume (length : Nat) (within : length = 0 ∨ m.pos + length ≤ task.input.size) :
      Update task op m (m.advance length)
  | append (intent : Intent τ) (logs : m.Logs op intent) :
      Update task op m (m.logged fun log => log.append intent)
  | link (label : Symbol) (child : Option τ) (known : ∀ node, child = some node → m.Recalls node) :
      Update task op m (m.logged fun log => log.link label child)
  | checkpoint (same : op = .tree .checkpoint) : Update task op m (m.push (.tree m.log.mark))
  | emit (mark : LogMark) (label : Symbol) (pops : m.Pops (.tree mark)) :
      Update task op m
        { m.drop with
          log := (m.log.commit task.factory mark label m.nodes).1
          nodes := (m.log.commit task.factory mark label m.nodes).2 }
  | enter (opens : op.opensScope = true) : Update task op m (m.push (.bindings m.bindings.save))
  | leave (mark : BindingMark) (pops : m.Pops (.bindings mark)) :
      Update task op m (m.drop.withBindings fun bindings => bindings.restore mark)
  | define (table : Symbol) (value : Bytes) :
      Update task op m (m.withBindings fun bindings => bindings.define table value)
  | mask (table : Symbol) : Update task op m (m.withBindings fun bindings => bindings.mask table)
  | look (id : MemoId) (state : Option Nat) (looks : op.lookedUp? = some id) :
      Update task op m { m with memo := (m.memo.lookup m.pos id state).2 }
  | tick (id : MemoId) (change : PointStats → PointStats) (looks : op.lookedUp? = some id) :
      Update task op m { m with stats := m.stats.countPoint id.index change }
  | skip (id : MemoId) (state : Option Nat) (entry : MemoEntry τ)
      (found : (m.memo.find m.pos id state).1 = some entry) (matched : entry.failed = false) :
      Update task op m (m.advance entry.consumed)
  | store (id : MemoId) (info : MemoPoint) (index : Nat) (choice : ChoicePoint)
      (result : Option τ) (stores : m.StoresMatch op id result)
      (known : task.program.memoPoint? id = some info) (caught : m.catchIndex = some index)
      (found : m.frames[index]? = some (.choice choice)) :
      Update task op m
        { m.cut index choice with
          memo := m.memo.record choice.pos id (m.matchEntry info choice result) }
  | storeFailure (id : MemoId) (info : MemoPoint) (same : op = .memo (.storeFailure id))
      (known : task.program.memoPoint? id = some info) :
      Update task op m { m with memo := m.memo.record m.pos id (m.failureEntry info) }

abbrev Updates (task : Task σ τ) (op : Op InstId) : Machine σ τ → Machine σ τ → Prop :=
  Relation.ReflTransGen (Update task op)

theorem Updates.one {task : Task σ τ} {op : Op InstId} {m m' : Machine σ τ}
    (update : Update task op m m') : Updates task op m m' :=
  Relation.ReflTransGen.single update

/-! ### What an instruction leads to -/

/-- Where control can go on: at the successor if the operation uses it, at a target that the
operation holds, at a return address, or at a branch of a dispatch table. -/
inductive Goes (task : Task σ τ) (inst : Inst InstId) (m : Machine σ τ) : InstId → Prop
  | next (uses : inst.op.usesNext = true) : Goes task inst m inst.next
  | target {target : InstId} (member : target ∈ inst.op.targets) : Goes task inst m target
  | ret {target : InstId} (pops : m.Pops (.ret target)) : Goes task inst m target
  | branch {id : DispatchId} {consume : Bool} {table : DispatchTable InstId} {target : InstId}
      (same : inst.op = .dispatch id consume) (found : task.program.dispatch? id = some table)
      (selects : table.target? (task.input.byteAt? m.pos) = some target) : Goes task inst m target

/-- What an instruction can lead to. It fails where it found the cursor, and it is trapped only where
it names what is not there. -/
inductive Leaves (task : Task σ τ) (inst : Inst InstId) (m : Machine σ τ) : Effect σ τ → Prop
  | goto {target : InstId} {m' : Machine σ τ} (updates : Updates task inst.op m m')
      (goes : Goes task inst m target) : Leaves task inst m (.goto target m')
  | fail {m' : Machine σ τ} (updates : Updates task inst.op m m') (still : m'.pos = m.pos) :
      Leaves task inst m (.fail m')
  | fault {fault : Fault} {m' : Machine σ τ} (updates : Updates task inst.op m m') :
      Leaves task inst m (.halt (.fault fault) m')
  | exit (matched : Bool) : Leaves task inst m (.halt (.exit matched) m)
  | trap (missing : ¬ inst.op.Within task.program) : Leaves task inst m (.halt .trap m)

namespace Leaves

variable {task : Task σ τ} {inst : Inst InstId} {m m' : Machine σ τ}

theorem here (uses : inst.op.usesNext = true) : Leaves task inst m (.goto inst.next m) :=
  .goto .refl (.next uses)

theorem onward (uses : inst.op.usesNext = true) (update : Update task inst.op m m') :
    Leaves task inst m (.goto inst.next m') :=
  .goto (Updates.one update) (.next uses)

theorem require (uses : inst.op.usesNext = true) (updates : Updates task inst.op m m')
    (still : m'.pos = m.pos) (condition : Bool) :
    Leaves task inst m (m'.require condition inst.next) := by
  cases condition with
  | false => exact .fail updates still
  | true => exact .goto updates (.next uses)

end Leaves

/-! ### Popping -/

section Pops

variable {m m' : Machine σ τ} {frame : Frame}

theorem Pops.position {pos : Nat} (pops : m.Pops frame) (reads : frame.position? = some pos) :
    m.Pops (.position pos) := by
  cases frame with
  | position saved => cases reads; exact pops
  | choice | ret | tree | bindings | count => cases reads

theorem Pops.ret {target : InstId} (pops : m.Pops frame) (reads : frame.ret? = some target) :
    m.Pops (.ret target) := by
  cases frame with
  | ret saved => cases reads; exact pops
  | choice | position | tree | bindings | count => cases reads

theorem Pops.tree {mark : LogMark} (pops : m.Pops frame) (reads : frame.tree? = some mark) :
    m.Pops (.tree mark) := by
  cases frame with
  | tree saved => cases reads; exact pops
  | choice | ret | position | bindings | count => cases reads

theorem Pops.bindings {mark : BindingMark} (pops : m.Pops frame)
    (reads : frame.bindings? = some mark) : m.Pops (.bindings mark) := by
  cases frame with
  | bindings saved => cases reads; exact pops
  | choice | ret | position | tree | count => cases reads

theorem popAs_ok {α : Type} {read : Frame → Option α} {expected : FrameKind} {site : Site}
    {content : α} (popped : m.popAs read expected site = .ok (content, m')) :
    ∃ frame, m.Pops frame ∧ read frame = some content ∧ m' = m.drop := by
  rcases popAs_cases read expected m site with
    ⟨frame, value, pops, reads, same⟩ | ⟨frame, cause, pops, same⟩ | ⟨cause, same⟩
  · rw [popped] at same
    cases same
    exact ⟨frame, pops, reads, rfl⟩
  · rw [popped] at same
    cases same
  · rw [popped] at same
    cases same

/-- A frame of another kind has been dropped before the fault is reported. -/
theorem popAs_fault {α : Type} {read : Frame → Option α} {expected : FrameKind} {site : Site}
    {cause : Fault} (popped : m.popAs read expected site = .error (cause, m'))
    (task : Task σ τ) (inst : Inst InstId) : Leaves task inst m (.halt (.fault cause) m') := by
  rcases popAs_cases read expected m site with
    ⟨frame, value, pops, reads, same⟩ | ⟨frame, cause', pops, same⟩ | ⟨cause', same⟩
  · rw [popped] at same
    cases same
  · rw [popped] at same
    cases same
    exact .fault (Updates.one (.drop frame pops))
  · rw [popped] at same
    cases same
    exact .fault .refl

end Pops

/-! ### Every operation -/

section Groups

variable (task : Task σ τ) (site : Site) (next : InstId) (m : Machine σ τ)

theorem recheck_leaves (op : ControlOp InstId) (checks : op = .guard ∨ op = .step) :
    Leaves task ⟨.control op, next⟩ m (m.recheck site next) := by
  have uses : (Op.control op : Op InstId).usesNext = true := by
    rcases checks with rfl | rfl <;> rfl
  have named : (Op.control op : Op InstId) = .control .guard ∨
      (Op.control op : Op InstId) = .control .step := by
    rcases checks with rfl | rfl
    · exact .inl rfl
    · exact .inr rfl
  unfold recheck
  cases innermost : m.innermost site with
  | error cause => exact .fault .refl
  | ok answer =>
      obtain ⟨index, point⟩ := answer
      obtain ⟨caught, found⟩ := innermost_ok innermost
      by_cases idle : point.pos = m.pos
      · simp only [idle, if_true]
        exact .fail .refl rfl
      · simp only [idle, if_false]
        exact .onward uses (.renew index point named caught found idle)

theorem control_leaves (op : ControlOp InstId) :
    Leaves task ⟨.control op, next⟩ m (m.control site next op) := by
  cases op with
  | nop name => exact .here rfl
  | exit matched => exact .exit matched
  | pos => exact .onward rfl .save
  | back =>
      simp only [control, popPosition]
      cases popped : m.popAs Frame.position? .position site with
      | error answer => exact popAs_fault popped task _
      | ok answer =>
          obtain ⟨pos, m₁⟩ := answer
          obtain ⟨frame, pops, reads, rfl⟩ := popAs_ok popped
          exact .onward rfl (.back pos (pops.position reads) rfl)
  | move shift =>
      simp only [control]
      cases moved : shiftedFrom m.pos shift with
      | none => exact .fault .refl
      | some pos => exact .onward rfl (.shift shift pos rfl moved)
  | jump target => exact .goto .refl (.target (List.mem_singleton.mpr rfl))
  | call target back rule =>
      have held : back ∈ (Op.control (.call target back rule)).targets :=
        List.mem_cons_of_mem _ List.mem_cons_self
      exact .goto (Updates.one (.call back held)) (.target List.mem_cons_self)
  | ret =>
      simp only [control]
      cases popped : m.popAs Frame.ret? .ret site with
      | error answer => exact popAs_fault popped task _
      | ok answer =>
          obtain ⟨target, m₁⟩ := answer
          obtain ⟨frame, pops, reads, rfl⟩ := popAs_ok popped
          exact .goto (Updates.one (.drop frame pops)) (.ret (pops.ret reads))
  | alt failure => exact .onward rfl (.alt failure rfl)
  | succ =>
      simp only [control]
      cases innermost : m.innermost site with
      | error cause => exact .fault .refl
      | ok answer =>
          obtain ⟨caught, found⟩ := innermost_ok innermost
          exact .onward rfl (.cut answer.1 answer.2 caught found)
  | fail => exact .fail .refl rfl
  | guard => exact recheck_leaves task site next m .guard (.inl rfl)
  | step => exact recheck_leaves task site next m .step (.inr rfl)

theorem test_leaves (pattern : Pattern SetId LitId) (found : Pattern ByteSet Bytes)
    (policy : Policy) :
    Leaves task ⟨.test pattern policy, next⟩ m (m.test task.input next found policy) := by
  cases policy with
  | once =>
      simp only [test]
      cases matched : found.length? task.input m.pos with
      | none => exact .fail .refl rfl
      | some length => exact .onward rfl (.consume length (.inr (Pattern.length?_within matched)))
  | absent =>
      simp only [test]
      cases matched : found.length? task.input m.pos with
      | none => exact .here rfl
      | some length => exact .fail .refl rfl
  | optional =>
      simp only [test]
      cases matched : found.length? task.input m.pos with
      | none => exact .here rfl
      | some length => exact .onward rfl (.consume length (.inr (Pattern.length?_within matched)))
  | many =>
      obtain ⟨total, same, within⟩ :=
        Pattern.skip_within task.input found (task.input.size - m.pos) m.pos
      simp only [test, Pattern.skipAll, same]
      exact .onward rfl (.consume total within)

theorem dispatch_leaves (id : DispatchId) (consume : Bool) {table : DispatchTable InstId}
    (known : task.program.dispatch? id = some table) :
    Leaves task ⟨.dispatch id consume, next⟩ m (m.dispatch task.input table consume) := by
  cases selects : table.target? (task.input.byteAt? m.pos) with
  | none =>
      simp only [dispatch, selects]
      apply Leaves.trap
      intro within
      obtain ⟨table', known', inside⟩ := within.tables id (List.mem_singleton.mpr rfl)
      rw [known, Option.some.injEq] at known'
      subst known'
      obtain ⟨target, found, _⟩ := inside.target? (task.input.byteAt? m.pos)
      rw [selects] at found
      cases found
  | some target =>
      simp only [dispatch, selects]
      have goes : Goes task ⟨.dispatch id consume, next⟩ m target := .branch rfl known selects
      cases byte : task.input.byteAt? m.pos with
      | none =>
          rw [Option.isSome_none, Bool.and_false]
          exact .goto .refl goes
      | some b =>
          cases consume with
          | false => exact .goto .refl goes
          | true =>
              have one : Update task (.dispatch id true) m (m.advance 1) :=
                .consume 1 (.inr (Input.byteAt?_within byte))
              exact .goto (Updates.one one) goes

/-- An intent without a position and without a node. -/
theorem Logs.plain {op : Op InstId} {intent : Intent τ} (unplaced : intent.position? = none)
    (bare : intent.child? = none) : m.Logs op intent := by
  refine ⟨fun pos placed => ?_, bare⟩
  rw [unplaced] at placed
  cases placed

/-- An intent at the shifted cursor. -/
theorem Logs.at {op : Op InstId} {intent : Intent τ} {pos : Nat} (places : m.Places op pos)
    (placed : intent.position? = some pos) (bare : intent.child? = none) : m.Logs op intent := by
  refine ⟨fun other same => ?_, bare⟩
  rw [placed] at same
  cases same
  exact places

theorem logAt_leaves (op : TreeOp) (shift : Int) (intent : Nat → Intent τ)
    (shifts : (Op.tree op : Op InstId).placement? = some shift)
    (placed : ∀ pos, (intent pos).position? = some pos) (bare : ∀ pos, (intent pos).child? = none) :
    Leaves task ⟨.tree op, next⟩ m (m.logAt site next shift intent) := by
  unfold logAt
  cases moved : shiftedFrom m.pos shift with
  | none => exact .fault .refl
  | some pos =>
      have logs : m.Logs (.tree op) (intent pos) :=
        .at m ⟨shift, shifts, moved⟩ (placed pos) (bare pos)
      exact .onward rfl (.append (intent pos) logs)

theorem closeNode_updates (op : Op InstId) (pos : Nat) (places : m.Places op pos) (tag : Symbol)
    (value : Option Bytes) :
    Updates task op m (m.logged fun log => closeNode log pos tag value) := by
  have captured : Updates task op m (m.logged fun log => log.append (.capture pos)) :=
    Updates.one (.append (.capture pos) (.at m places rfl rfl))
  have tagged : Updates task op m
      (m.logged fun log =>
        if tag.isNull then log.append (.capture pos)
        else (log.append (.capture pos)).append (.tag tag)) := by
    cases tag.isNull with
    | true => exact captured
    | false => exact captured.tail (.append (.tag tag) (.plain _ rfl rfl))
  cases value with
  | none => exact tagged
  | some bytes => exact tagged.tail (.append (.replace bytes) (.plain _ rfl rfl))

theorem literalValue?_within {shift : Int} {tag : Symbol} {value : Option LitId}
    (missing : literalValue? task.program value = none) :
    ¬ (Op.tree (.close shift tag value) : Op InstId).Within task.program := by
  intro within
  cases value with
  | none => cases missing
  | some id =>
      obtain ⟨bytes, found⟩ := within.literal? (List.mem_singleton.mpr rfl)
      simp only [literalValue?, found] at missing
      cases missing

theorem treeStep_leaves (op : TreeOp) :
    Leaves task ⟨.tree op, next⟩ m (m.treeStep task site next op) := by
  cases op with
  | node shift =>
      exact logAt_leaves task site next m _ shift .begin rfl (fun _ => rfl) fun _ => rfl
  | close shift tag value =>
      simp only [treeStep]
      cases moved : shiftedFrom m.pos shift with
      | none => exact .fault .refl
      | some pos =>
          cases found : literalValue? task.program value with
          | none => exact .trap (literalValue?_within task found)
          | some bytes =>
              have places : m.Places (.tree (.close shift tag value)) pos := ⟨shift, rfl, moved⟩
              exact .goto (closeNode_updates task m _ pos places tag bytes) (.next rfl)
  | tag tag => exact .onward rfl (.append (.tag tag) (.plain m rfl rfl))
  | replace value =>
      simp only [treeStep]
      cases found : task.program.literal? value with
      | none =>
          apply Leaves.trap
          intro within
          obtain ⟨bytes, held⟩ := within.literal? (List.mem_singleton.mpr rfl)
          rw [found] at held
          cases held
      | some bytes => exact .onward rfl (.append (.replace bytes) (.plain m rfl rfl))
  | fold shift label =>
      exact logAt_leaves task site next m _ shift (fun pos => .leftFold pos label) rfl
        (fun _ => rfl) fun _ => rfl
  | push => exact .onward rfl (.append .push (.plain m rfl rfl))
  | pop label => exact .onward rfl (.append (.pop label) (.plain m rfl rfl))
  | checkpoint => exact .onward rfl (.checkpoint rfl)
  | emit label =>
      simp only [treeStep]
      cases popped : m.popAs Frame.tree? .tree site with
      | error answer => exact popAs_fault popped task _
      | ok answer =>
          obtain ⟨mark, m₁⟩ := answer
          obtain ⟨frame, pops, reads, rfl⟩ := popAs_ok popped
          exact .onward rfl (.emit mark label (pops.tree reads))

theorem requireCaptured_leaves (op : BindingOp) (condition : Bindings → Bytes → Bool) :
    Leaves task ⟨.bindings op, next⟩ m (m.requireCaptured task.input site next condition) := by
  simp only [requireCaptured, popPosition]
  cases popped : m.popAs Frame.position? .position site with
  | error answer => exact popAs_fault popped task _
  | ok answer =>
      obtain ⟨start, m₁⟩ := answer
      obtain ⟨frame, pops, reads, rfl⟩ := popAs_ok popped
      exact .require rfl (Updates.one (.drop frame pops)) rfl _

theorem bindingStep_leaves (op : BindingOp) :
    Leaves task ⟨.bindings op, next⟩ m (m.bindingStep task site next op) := by
  cases op with
  | enter => exact .onward rfl (.enter rfl)
  | leave =>
      simp only [bindingStep]
      cases popped : m.popAs Frame.bindings? .bindings site with
      | error answer => exact popAs_fault popped task _
      | ok answer =>
          obtain ⟨mark, m₁⟩ := answer
          obtain ⟨frame, pops, reads, rfl⟩ := popAs_ok popped
          exact .onward rfl (.leave mark (pops.bindings reads))
  | mask table =>
      have entered : Updates task (.bindings (.mask table)) m
          (m.push (.bindings m.bindings.save)) := Updates.one (.enter rfl)
      exact .goto (entered.tail (.mask table)) (.next rfl)
  | define table =>
      simp only [bindingStep, popPosition]
      cases popped : m.popAs Frame.position? .position site with
      | error answer => exact popAs_fault popped task _
      | ok answer =>
          obtain ⟨start, m₁⟩ := answer
          obtain ⟨frame, pops, reads, rfl⟩ := popAs_ok popped
          have dropped : Updates task (.bindings (.define table)) m m.drop :=
            Updates.one (.drop frame pops)
          exact .goto (dropped.tail (.define table _)) (.next rfl)
  | bound table => exact .require rfl .refl rfl _
  | holds table lit =>
      simp only [bindingStep]
      cases found : task.program.literal? lit with
      | none =>
          apply Leaves.trap
          intro within
          obtain ⟨bytes, held⟩ := within.literal? (List.mem_singleton.mpr rfl)
          rw [found] at held
          cases held
      | some bytes => exact .require rfl .refl rfl _
  | consume table =>
      simp only [bindingStep]
      cases m.bindings.lookup table with
      | none => exact .here rfl
      | some bytes =>
          by_cases here : task.input.matchesAt m.pos bytes = true
          · simp only [here, if_true]
            exact .onward rfl (.consume bytes.size (.inr (Input.matchesAt_within here)))
          · simp only [here]
            exact .fail .refl rfl
  | isLatest table =>
      exact requireCaptured_leaves task site next m _
        fun bindings bytes => bindings.isLatest table bytes
  | isVisible table =>
      exact requireCaptured_leaves task site next m _
        fun bindings bytes => bindings.contains table bytes

theorem countStep_leaves (op : CountOp InstId) :
    Leaves task ⟨.count op, next⟩ m (m.countStep task.input site next op) := by
  cases op with
  | scan mask shift =>
      simp only [countStep, popPosition]
      cases popped : m.popAs Frame.position? .position site with
      | error answer => exact popAs_fault popped task _
      | ok answer =>
          obtain ⟨start, m₁⟩ := answer
          obtain ⟨frame, pops, reads, rfl⟩ := popAs_ok popped
          have dropped : Updates task (.count (.scan mask shift)) m m.drop :=
            Updates.one (.drop frame pops)
          exact .goto (dropped.tail (.count _)) (.next rfl)
  | dec done =>
      simp only [countStep]
      cases back : m.frames.back? with
      | none => exact .fault .refl
      | some frame =>
          cases frame with
          | count left =>
              have dropped : Updates task (.count (.dec done)) m m.drop :=
                Updates.one (.drop (.count left) ⟨back, .inl rfl⟩)
              by_cases spent : left = 0
              · simp only [spent, if_true]
                exact .goto dropped (.target (List.mem_singleton.mpr rfl))
              · simp only [spent, if_false]
                exact .goto (dropped.tail (.count (left - 1))) (.next rfl)
          | choice | ret | position | tree | bindings => exact .fault .refl

theorem storeMatch_leaves {op : MemoOp InstId} {id : MemoId} {info : MemoPoint}
    {result : Option τ} (stores : m.StoresMatch (.memo op) id result)
    (known : task.program.memoPoint? id = some info) :
    Leaves task ⟨.memo op, next⟩ m (m.storeMatch site next id info result) := by
  have uses : (Op.memo op : Op InstId).usesNext = true := by
    rcases stores with ⟨same, _⟩ | ⟨same, _⟩ <;> cases same <;> rfl
  unfold storeMatch
  cases innermost : m.innermost site with
  | error cause => exact .fault .refl
  | ok answer =>
      obtain ⟨caught, found⟩ := innermost_ok innermost
      exact .onward uses (.store id info answer.1 answer.2 result stores known caught found)

theorem lookup_leaves {op : MemoOp InstId} {skip : InstId} {id : MemoId}
    (member : skip ∈ (Op.memo op : Op InstId).targets)
    (uses : (Op.memo op : Op InstId).usesNext = true)
    (looks : (Op.memo op : Op InstId).lookedUp? = some id) (info : MemoPoint)
    (label : Option Symbol) :
    Leaves task ⟨.memo op, next⟩ m (m.lookup next skip id info label) := by
  let looked : Machine σ τ := { m with memo := (m.memo.lookup m.pos id (m.memoState info)).2 }
  have look : Updates task (.memo op) m looked := Updates.one (.look id (m.memoState info) looks)
  cases found : (m.memo.find m.pos id (m.memoState info)).1 with
  | none =>
      have answer : (m.memo.lookup m.pos id (m.memoState info)).1 = none := found
      simp only [lookup, answer]
      exact .goto (look.tail (.tick id PointStats.miss looks)) (.next uses)
  | some entry =>
      have answer : (m.memo.lookup m.pos id (m.memoState info)).1 = some entry := found
      cases failed : entry.failed with
      | true =>
          simp only [lookup, answer, failed, if_true]
          exact .fail (look.tail (.tick id PointStats.failHit looks)) rfl
      | false =>
          have skipped : Updates task (.memo op) m (looked.advance entry.consumed) :=
            look.tail (.skip id (m.memoState info) entry found failed)
          have ticked := skipped.tail (.tick id (fun stats => stats.hit entry.consumed) looks)
          simp only [lookup, answer, failed, Bool.false_eq_true, if_false]
          cases label with
          | none => exact .goto ticked (.target member)
          | some label =>
              refine .goto (ticked.tail (.link label entry.result fun node held => ?_))
                (.target member)
              exact ⟨m.pos, id, m.memoState info, entry, found, held⟩

theorem memoPoint?_within {op : Op InstId} {id : MemoId} (named : op.memoId? = some id)
    (missing : task.program.memoPoint? id = none) : ¬ op.Within task.program := by
  intro within
  obtain ⟨info, found⟩ := within.memoPoint? named
  rw [missing] at found
  cases found

theorem memoStep_leaves (op : MemoOp InstId) :
    Leaves task ⟨.memo op, next⟩ m (m.memoStep task.program site next op) := by
  cases op with
  | lookup id skip =>
      simp only [memoStep, Op.memoId?]
      cases known : task.program.memoPoint? id with
      | none => exact .trap (memoPoint?_within task rfl known)
      | some info => exact lookup_leaves task next m (List.mem_singleton.mpr rfl) rfl rfl info none
  | treeLookup id label skip =>
      simp only [memoStep, Op.memoId?]
      cases known : task.program.memoPoint? id with
      | none => exact .trap (memoPoint?_within task rfl known)
      | some info =>
          exact lookup_leaves task next m (List.mem_singleton.mpr rfl) rfl rfl info (some label)
  | store id =>
      simp only [memoStep, Op.memoId?]
      cases known : task.program.memoPoint? id with
      | none => exact .trap (memoPoint?_within task rfl known)
      | some info => exact storeMatch_leaves task site next m (.inl ⟨rfl, rfl⟩) known
  | treeStore id =>
      simp only [memoStep, Op.memoId?]
      cases known : task.program.memoPoint? id with
      | none => exact .trap (memoPoint?_within task rfl known)
      | some info => exact storeMatch_leaves task site next m (.inr ⟨rfl, rfl⟩) known
  | storeFailure id =>
      simp only [memoStep, Op.memoId?]
      cases known : task.program.memoPoint? id with
      | none => exact .trap (memoPoint?_within task rfl known)
      | some info => exact .fail (Updates.one (.storeFailure id info rfl known)) rfl

end Groups

/-- Whatever instruction is executed, it makes updates and goes where it can go. -/
theorem exec_leaves (task : Task σ τ) (place : InstId) (inst : Inst InstId) (m : Machine σ τ) :
    Leaves task inst m (m.exec task place inst) := by
  obtain ⟨op, next⟩ := inst
  cases op with
  | control op => exact control_leaves task ⟨place, .control op⟩ next m op
  | test pattern policy =>
      simp only [exec]
      cases found : task.program.pattern? pattern with
      | none =>
          apply Leaves.trap
          intro within
          obtain ⟨held, known⟩ := within.pattern?
          rw [found] at known
          cases known
      | some held => exact test_leaves task next m pattern held policy
  | dispatch table consume =>
      simp only [exec]
      cases known : task.program.dispatch? table with
      | none =>
          apply Leaves.trap
          intro within
          obtain ⟨held, found, _⟩ := within.tables table (List.mem_singleton.mpr rfl)
          rw [known] at found
          cases found
      | some held => exact dispatch_leaves task next m table consume known
  | tree op => exact treeStep_leaves task ⟨place, .tree op⟩ next m op
  | bindings op => exact bindingStep_leaves task ⟨place, .bindings op⟩ next m op
  | count op => exact countStep_leaves task ⟨place, .count op⟩ next m op
  | memo op => exact memoStep_leaves task ⟨place, .memo op⟩ next m op

/-! ### Updates of what a failure brings back -/

/-- An update is edits, or it sets a choice point. -/
theorem Update.changes {task : Task σ τ} {op : Op InstId} {m m' : Machine σ τ}
    (update : Update task op m m') :
    Edits m m' ∨ (op.setsChoice = true ∧ ∃ failure, m' = m.pushChoice failure) ∨
      (op.setsChoice = true ∧ ∃ index point, m.frames[index]? = some (.choice point) ∧
        m' = m.renewChoice index point) := by
  cases update with
  | save => exact .inl (Edits.one (.push (.position m.pos) rfl))
  | back pos pops => exact .inl ((Edits.one (.drop _ pops)).tail (.keep ⟨⟨rfl, rfl⟩, rfl, rfl⟩))
  | shift amount pos same moved => exact .inl (Edits.same ⟨⟨rfl, rfl⟩, rfl, rfl⟩)
  | call after member => exact .inl (Edits.one (.push (.ret after) rfl))
  | drop frame pops => exact .inl (Edits.one (.drop frame pops))
  | count left => exact .inl (Edits.one (.push (.count left) rfl))
  | alt failure same =>
      rw [same]
      exact .inr (.inl ⟨rfl, failure, rfl⟩)
  | renew index point checks caught found =>
      have sets : op.setsChoice = true := by
        rcases checks with same | same
        · rw [same]; rfl
        · rw [same]; rfl
      exact .inr (.inr ⟨sets, index, point, found, rfl⟩)
  | cut index point caught found => exact .inl (Edits.one (.cut index point caught found))
  | consume length within => exact .inl (Edits.same ⟨⟨rfl, rfl⟩, rfl, rfl⟩)
  | append intent => exact .inl (Edits.one (.append intent))
  | link label child => exact .inl (Edits.one (.link label child))
  | checkpoint => exact .inl (Edits.one .checkpoint)
  | emit mark label pops => exact .inl (Edits.one (.emit task.factory mark label pops))
  | enter => exact .inl (Edits.one .enter)
  | leave mark pops => exact .inl (Edits.one (.leave mark pops))
  | define table value => exact .inl (Edits.one (.define table value))
  | mask table => exact .inl (Edits.one (.mask table))
  | look id state looks => exact .inl (Edits.same ⟨⟨rfl, rfl⟩, rfl, rfl⟩)
  | tick id change looks => exact .inl (Edits.same ⟨⟨rfl, rfl⟩, rfl, rfl⟩)
  | skip id state entry found matched => exact .inl (Edits.same ⟨⟨rfl, rfl⟩, rfl, rfl⟩)
  | store id info index choice result stores known caught found =>
      have cut := Edits.one (.cut index choice caught found)
      exact .inl (cut.tail (.keep ⟨⟨rfl, rfl⟩, rfl, rfl⟩))
  | storeFailure id info same known => exact .inl (Edits.same ⟨⟨rfl, rfl⟩, rfl, rfl⟩)

theorem Update.edits {task : Task σ τ} {op : Op InstId} {m m' : Machine σ τ}
    (update : Update task op m m') (keeps : op.setsChoice = false) : Edits m m' := by
  rcases update.changes with edits | ⟨sets, _⟩ | ⟨sets, _⟩
  · exact edits
  · rw [keeps] at sets
    cases sets
  · rw [keeps] at sets
    cases sets

theorem Updates.edits {task : Task σ τ} {op : Op InstId} {m m' : Machine σ τ}
    (updates : Updates task op m m') (keeps : op.setsChoice = false) : Edits m m' := by
  induction updates with
  | refl => exact .refl
  | tail _ last ih => exact ih.trans (last.edits keeps)

/-- The updates that lie between the state before an instruction and the state that it leaves. -/
theorem Leaves.updates {task : Task σ τ} {inst : Inst InstId} {m : Machine σ τ}
    {effect : Effect σ τ} (leaves : Leaves task inst m effect) :
    Updates task inst.op m (after effect) := by
  cases leaves with
  | goto updates goes => exact updates
  | fail updates still => exact updates
  | fault updates => exact updates
  | exit matched => exact .refl
  | trap missing => exact .refl

/-- Whatever it leads to, an instruction that sets no choice point leaves what edits leave. -/
theorem exec_edits (task : Task σ τ) (place : InstId) (inst : Inst InstId) (m : Machine σ τ)
    (keeps : inst.op.setsChoice = false) : Edits m (after (m.exec task place inst)) :=
  (exec_leaves task place inst m).updates.edits keeps

end Machine

end Packrat
