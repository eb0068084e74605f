/-
Machines that build other values in place of nodes. The log, the node attached last and the memoized
outcomes hold the images of the nodes that the first machine has; all else is the same. Every
instruction keeps this, so a run with another factory takes the same way as the run that builds
trees, and ends with the image of its tree: the fold of the tree, where the factory computes a
function.
-/

import Packrat.Proofs.Machine.Execution
import Packrat.Proofs.Memo.Images
import Packrat.Proofs.Tree.Fold

namespace Packrat

variable {σ σ' τ τ' : Type} {h : τ → τ'}

namespace Machine

/-- The machine with images for nodes. Its table and the state of its factory are its own. -/
def image (h : τ → τ') (memo : MemoTable τ') (nodes : σ') (m : Machine σ τ) : Machine σ' τ' :=
  { pos := m.pos
    head := m.head
    frames := m.frames
    catchIndex := m.catchIndex
    log := m.log.map h
    bindings := m.bindings
    memo := memo
    stats := m.stats
    nodes := nodes }

structure Carries (h : τ → τ') (m : Machine σ τ) (m' : Machine σ' τ') : Prop where
  same : m' = m.image h m'.memo m'.nodes
  entries : m.memo.Carries h m'.memo

inductive CarriesEffect (h : τ → τ') : Effect σ τ → Effect σ' τ' → Prop
  | goto (target : InstId) {m : Machine σ τ} {m' : Machine σ' τ'} (carries : m.Carries h m') :
      CarriesEffect h (.goto target m) (.goto target m')
  | fail {m : Machine σ τ} {m' : Machine σ' τ'} (carries : m.Carries h m') :
      CarriesEffect h (.fail m) (.fail m')
  | halt (reason : Halt) {m : Machine σ τ} {m' : Machine σ' τ'} (carries : m.Carries h m') :
      CarriesEffect h (.halt reason m) (.halt reason m')

inductive CarriesTransition (h : τ → τ') : Transition σ τ → Transition σ' τ' → Prop
  | goto (target : InstId) {m : Machine σ τ} {m' : Machine σ' τ'} (carries : m.Carries h m') :
      CarriesTransition h (.goto target m) (.goto target m')
  | halt (reason : Halt) {m : Machine σ τ} {m' : Machine σ' τ'} (carries : m.Carries h m') :
      CarriesTransition h (.halt reason m) (.halt reason m')

variable {m : Machine σ τ} {memo : MemoTable τ'} {nodes : σ'}

/-! ### The stack -/

theorem pos_image : (m.image h memo nodes).pos = m.pos := rfl

theorem frames_image : (m.image h memo nodes).frames = m.frames := rfl

theorem catchIndex_image : (m.image h memo nodes).catchIndex = m.catchIndex := rfl

theorem bindings_image : (m.image h memo nodes).bindings = m.bindings := rfl

theorem innermost_image (site : Site) : (m.image h memo nodes).innermost site = m.innermost site :=
  rfl

theorem top_image (site : Site) (expected : FrameKind) :
    (m.image h memo nodes).top site expected = m.top site expected :=
  rfl

/-- Popping changes the stack only, and does the same on both machines. -/
theorem popAs_image {α : Type} (read : Frame → Option α) (expected : FrameKind) (site : Site) :
    (∃ cause m₁, m.popAs read expected site = .error (cause, m₁) ∧ m₁.memo = m.memo ∧
        (m.image h memo nodes).popAs read expected site = .error (cause, m₁.image h memo nodes)) ∨
      ∃ content, m.popAs read expected site = .ok (content, m.drop) ∧
        (m.image h memo nodes).popAs read expected site =
          .ok (content, m.drop.image h memo nodes) := by
  unfold popAs
  rw [top_image]
  cases m.top site expected with
  | error cause => exact .inl ⟨cause, m, rfl, rfl, rfl⟩
  | ok frame =>
      dsimp only
      cases read frame with
      | none => exact .inl ⟨_, m.drop, rfl, rfl, rfl⟩
      | some content => exact .inr ⟨content, rfl, rfl⟩

section Image

variable (entries : m.memo.Carries h memo)

include entries

theorem image_pushChoice (failure : InstId) :
    (m.pushChoice failure).Carries h ((m.image h memo nodes).pushChoice failure) := by
  have mark : (m.log.map h).mark = m.log.mark := m.log.mark_map
  refine ⟨?_, entries⟩
  simp only [pushChoice, image, mark]

theorem image_renewChoice (index : Nat) (point : ChoicePoint) :
    (m.renewChoice index point).Carries h ((m.image h memo nodes).renewChoice index point) := by
  have mark : (m.log.map h).mark = m.log.mark := m.log.mark_map
  refine ⟨?_, entries⟩
  simp only [renewChoice, image, mark]

theorem image_resume (index : Nat) (point : ChoicePoint) :
    (m.resume index point).Carries h ((m.image h memo nodes).resume index point) := by
  have aborted : (m.log.map h).abort point.tree = (m.log.abort point.tree).map h :=
    m.log.abort_map point.tree
  refine ⟨?_, entries⟩
  simp only [resume, cut, image, aborted]

theorem image_logged {change : TreeLog τ → TreeLog τ} {change' : TreeLog τ' → TreeLog τ'}
    (same : change' (m.log.map h) = (change m.log).map h) :
    (m.logged change).Carries h ((m.image h memo nodes).logged change') :=
  ⟨congrArg (fun log => { m.image h memo nodes with log := log }) same, entries⟩

/-! ### Instructions -/

theorem image_require (condition : Bool) (next : InstId) :
    CarriesEffect h (m.require condition next) ((m.image h memo nodes).require condition next) := by
  cases condition with
  | false => exact .fail ⟨rfl, entries⟩
  | true => exact .goto next ⟨rfl, entries⟩

theorem image_recheck (site : Site) (next : InstId) :
    CarriesEffect h (m.recheck site next) ((m.image h memo nodes).recheck site next) := by
  unfold recheck
  rw [innermost_image]
  cases m.innermost site with
  | error cause => exact .halt _ ⟨rfl, entries⟩
  | ok found =>
      obtain ⟨index, point⟩ := found
      dsimp only
      rw [pos_image]
      by_cases idle : point.pos = m.pos
      · rw [if_pos idle, if_pos idle]
        exact .fail ⟨rfl, entries⟩
      · rw [if_neg idle, if_neg idle]
        exact .goto next (image_renewChoice entries index point)

theorem image_control (site : Site) (next : InstId) (op : ControlOp InstId) :
    CarriesEffect h (m.control site next op) ((m.image h memo nodes).control site next op) := by
  cases op with
  | nop name => exact .goto next ⟨rfl, entries⟩
  | exit matched => exact .halt _ ⟨rfl, entries⟩
  | pos => exact .goto next ⟨rfl, entries⟩
  | back =>
      rw [control, control, popPosition, popPosition]
      rcases popAs_image Frame.position? .position site with
        ⟨cause, m₁, popped, same, popped'⟩ | ⟨pos, popped, popped'⟩
      · rw [popped, popped']
        exact .halt _ ⟨rfl, same ▸ entries⟩
      · rw [popped, popped']
        exact .goto next ⟨rfl, entries⟩
  | move shift =>
      rw [control, control, pos_image]
      cases shiftedFrom m.pos shift with
      | none => exact .halt _ ⟨rfl, entries⟩
      | some pos => exact .goto next ⟨rfl, entries⟩
  | jump target => exact .goto target ⟨rfl, entries⟩
  | call target after name => exact .goto target ⟨rfl, entries⟩
  | ret =>
      rw [control, control]
      rcases popAs_image Frame.ret? .ret site with
        ⟨cause, m₁, popped, same, popped'⟩ | ⟨target, popped, popped'⟩
      · rw [popped, popped']
        exact .halt _ ⟨rfl, same ▸ entries⟩
      · rw [popped, popped']
        exact .goto target ⟨rfl, entries⟩
  | alt failure => exact .goto next (image_pushChoice entries failure)
  | succ =>
      rw [control, control, innermost_image]
      cases m.innermost site with
      | error cause => exact .halt _ ⟨rfl, entries⟩
      | ok found => exact .goto next ⟨rfl, entries⟩
  | fail => exact .fail ⟨rfl, entries⟩
  | guard => exact image_recheck entries site next
  | step => exact image_recheck entries site next

theorem image_test (input : Input) (next : InstId) (pattern : Pattern ByteSet Bytes)
    (policy : Policy) :
    CarriesEffect h (m.test input next pattern policy)
      ((m.image h memo nodes).test input next pattern policy) := by
  cases policy with
  | many => exact .goto next ⟨rfl, entries⟩
  | once =>
      rw [test, test, pos_image]
      cases pattern.length? input m.pos with
      | none => exact .fail ⟨rfl, entries⟩
      | some length => exact .goto next ⟨rfl, entries⟩
  | absent =>
      rw [test, test, pos_image]
      cases pattern.length? input m.pos with
      | none => exact .goto next ⟨rfl, entries⟩
      | some length => exact .fail ⟨rfl, entries⟩
  | optional =>
      rw [test, test, pos_image]
      cases pattern.length? input m.pos with
      | none => exact .goto next ⟨rfl, entries⟩
      | some length => exact .goto next ⟨rfl, entries⟩

theorem image_dispatch (input : Input) (table : DispatchTable InstId) (consume : Bool) :
    CarriesEffect h (m.dispatch input table consume)
      ((m.image h memo nodes).dispatch input table consume) := by
  unfold dispatch
  rw [pos_image]
  dsimp only
  cases table.target? (input.byteAt? m.pos) with
  | none => exact .halt _ ⟨rfl, entries⟩
  | some target =>
      dsimp only
      cases consume && (input.byteAt? m.pos).isSome with
      | false => exact .goto target ⟨rfl, entries⟩
      | true => exact .goto target ⟨rfl, entries⟩

/-- An intent without a node is its own image. -/
theorem image_append {intent : Intent τ} {intent' : Intent τ'} (same : intent' = intent.map h) :
    (m.logged fun log => log.append intent).Carries h
      ((m.image h memo nodes).logged fun log => log.append intent') := by
  subst same
  exact image_logged entries (m.log.append_map intent)

theorem image_logAt (site : Site) (next : InstId) (shift : Int) {intent : Nat → Intent τ}
    {intent' : Nat → Intent τ'} (same : ∀ pos, intent' pos = (intent pos).map h) :
    CarriesEffect h (m.logAt site next shift intent)
      ((m.image h memo nodes).logAt site next shift intent') := by
  rw [logAt, logAt, pos_image]
  cases shiftedFrom m.pos shift with
  | none => exact .halt _ ⟨rfl, entries⟩
  | some pos => exact .goto next (image_append entries (same pos))

omit entries in
theorem closeNode_map (log : TreeLog τ) (pos : Nat) (tag : Symbol) (value : Option Bytes) :
    closeNode (log.map h) pos tag value = (closeNode log pos tag value).map h := by
  have captured : (log.map h).append (.capture pos) = (log.append (.capture pos)).map h :=
    log.append_map (.capture pos)
  have tagged (log : TreeLog τ) : (log.map h).append (.tag tag) = (log.append (.tag tag)).map h :=
    log.append_map (.tag tag)
  have replaced (log : TreeLog τ) (bytes : Bytes) :
      (log.map h).append (.replace bytes) = (log.append (.replace bytes)).map h :=
    log.append_map (.replace bytes)
  unfold closeNode
  rw [captured]
  cases tag.isNull <;> cases value <;>
    simp only [tagged, replaced, Bool.false_eq_true, if_false, if_true]

theorem image_treeStep {task : Task σ τ} {factory' : TreeFactory σ' τ'}
    (carries : task.factory.Carries h factory') (site : Site) (next : InstId) (op : TreeOp) :
    CarriesEffect h (m.treeStep task site next op)
      ((m.image h memo nodes).treeStep ⟨task.program, task.input, factory'⟩ site next op) := by
  cases op with
  | node shift => exact image_logAt entries site next shift fun pos => rfl
  | close shift tag value =>
      rw [treeStep, treeStep, pos_image]
      cases shiftedFrom m.pos shift with
      | none => exact .halt _ ⟨rfl, entries⟩
      | some pos =>
          cases literalValue? task.program value with
          | none => exact .halt _ ⟨rfl, entries⟩
          | some bytes =>
              exact .goto next (image_logged entries (closeNode_map m.log pos tag bytes))
  | tag tag => exact .goto next (image_append entries rfl)
  | replace value =>
      rw [treeStep, treeStep]
      cases task.program.literal? value with
      | none => exact .halt _ ⟨rfl, entries⟩
      | some bytes => exact .goto next (image_append entries rfl)
  | fold shift label => exact image_logAt entries site next shift fun pos => rfl
  | push => exact .goto next (image_append entries rfl)
  | pop label => exact .goto next (image_append entries rfl)
  | checkpoint =>
      have mark : (m.log.map h).mark = m.log.mark := m.log.mark_map
      refine .goto next ⟨?_, entries⟩
      simp only [push, image, mark]
  | emit label =>
      rw [treeStep, treeStep]
      rcases popAs_image Frame.tree? .tree site with
        ⟨cause, m₁, popped, same, popped'⟩ | ⟨mark, popped, popped'⟩
      · rw [popped, popped']
        exact .halt _ ⟨rfl, same ▸ entries⟩
      · rw [popped, popped']
        refine .goto next ⟨?_, entries⟩
        have committed := TreeLog.commit_map carries m.log mark label m.nodes nodes
        exact congrArg (fun log => { m.drop.image h memo _ with log := log }) committed

/-! ### Bindings and counters -/

theorem image_requireCaptured (input : Input) (site : Site) (next : InstId)
    (condition : Bindings → Bytes → Bool) :
    CarriesEffect h (m.requireCaptured input site next condition)
      ((m.image h memo nodes).requireCaptured input site next condition) := by
  unfold requireCaptured popPosition
  rcases popAs_image Frame.position? .position site with
    ⟨cause, m₁, popped, same, popped'⟩ | ⟨start, popped, popped'⟩
  · rw [popped, popped']
    exact .halt _ ⟨rfl, same ▸ entries⟩
  · rw [popped, popped']
    exact image_require (m := m.drop) entries _ next

theorem image_bindingStep {task : Task σ τ} {factory' : TreeFactory σ' τ'} (site : Site)
    (next : InstId) (op : BindingOp) :
    CarriesEffect h (m.bindingStep task site next op)
      ((m.image h memo nodes).bindingStep ⟨task.program, task.input, factory'⟩ site next op) := by
  cases op with
  | enter => exact .goto next ⟨rfl, entries⟩
  | leave =>
      rw [bindingStep, bindingStep]
      rcases popAs_image Frame.bindings? .bindings site with
        ⟨cause, m₁, popped, same, popped'⟩ | ⟨mark, popped, popped'⟩
      · rw [popped, popped']
        exact .halt _ ⟨rfl, same ▸ entries⟩
      · rw [popped, popped']
        exact .goto next ⟨rfl, entries⟩
  | mask table => exact .goto next ⟨rfl, entries⟩
  | define table =>
      rw [bindingStep, bindingStep, popPosition, popPosition]
      rcases popAs_image Frame.position? .position site with
        ⟨cause, m₁, popped, same, popped'⟩ | ⟨start, popped, popped'⟩
      · rw [popped, popped']
        exact .halt _ ⟨rfl, same ▸ entries⟩
      · rw [popped, popped']
        exact .goto next ⟨rfl, entries⟩
  | bound table => exact image_require entries _ next
  | holds table lit =>
      rw [bindingStep, bindingStep]
      cases task.program.literal? lit with
      | none => exact .halt _ ⟨rfl, entries⟩
      | some bytes => exact image_require entries _ next
  | consume table =>
      rw [bindingStep, bindingStep, bindings_image, pos_image]
      cases m.bindings.lookup table with
      | none => exact .goto next ⟨rfl, entries⟩
      | some bytes =>
          dsimp only
          cases task.input.matchesAt m.pos bytes with
          | false => exact .fail ⟨rfl, entries⟩
          | true => exact .goto next ⟨rfl, entries⟩
  | isLatest table =>
      exact image_requireCaptured entries task.input site next (·.isLatest table ·)
  | isVisible table =>
      exact image_requireCaptured entries task.input site next (·.contains table ·)

theorem image_countStep (input : Input) (site : Site) (next : InstId) (op : CountOp InstId) :
    CarriesEffect h (m.countStep input site next op)
      ((m.image h memo nodes).countStep input site next op) := by
  cases op with
  | scan mask shift =>
      rw [countStep, countStep, popPosition, popPosition]
      rcases popAs_image Frame.position? .position site with
        ⟨cause, m₁, popped, same, popped'⟩ | ⟨start, popped, popped'⟩
      · rw [popped, popped']
        exact .halt _ ⟨rfl, same ▸ entries⟩
      · rw [popped, popped']
        exact .goto next ⟨rfl, entries⟩
  | dec done =>
      rw [countStep, countStep, frames_image]
      cases m.frames.back? with
      | none => exact .halt _ ⟨rfl, entries⟩
      | some frame =>
          cases frame with
          | count left =>
              dsimp only
              by_cases spent : left = 0
              · rw [if_pos spent, if_pos spent]
                exact .goto done ⟨rfl, entries⟩
              · rw [if_neg spent, if_neg spent]
                exact .goto next ⟨rfl, entries⟩
          | choice point => exact .halt _ ⟨rfl, entries⟩
          | ret target => exact .halt _ ⟨rfl, entries⟩
          | position pos => exact .halt _ ⟨rfl, entries⟩
          | tree mark => exact .halt _ ⟨rfl, entries⟩
          | bindings mark => exact .halt _ ⟨rfl, entries⟩

/-! ### Memoization -/

theorem image_storeMatch (site : Site) (next : InstId) (id : MemoId) (point : MemoPoint)
    (result : Option τ) :
    CarriesEffect h (m.storeMatch site next id point result)
      ((m.image h memo nodes).storeMatch site next id point (result.map h)) := by
  rw [storeMatch, storeMatch, innermost_image]
  cases m.innermost site with
  | error cause => exact .halt _ ⟨rfl, entries⟩
  | ok found =>
      obtain ⟨index, choice⟩ := found
      exact .goto next ⟨rfl, entries.record choice.pos id _⟩

theorem image_storeFailure (id : MemoId) (point : MemoPoint) :
    CarriesEffect h (m.storeFailure id point) ((m.image h memo nodes).storeFailure id point) :=
  .fail ⟨rfl, entries.record m.pos id ⟨true, 0, none, (m.memoState point).getD 0⟩⟩

theorem image_lookup (next skip : InstId) (id : MemoId) (point : MemoPoint)
    (label : Option Symbol) :
    CarriesEffect h (m.lookup next skip id point label)
      ((m.image h memo nodes).lookup next skip id point label) := by
  have same : (m.image h memo nodes).memo.lookup (m.image h memo nodes).pos id
      ((m.image h memo nodes).memoState point) = memo.lookup m.pos id (m.memoState point) := rfl
  have looked := entries.lookup m.pos id (m.memoState point)
  rw [lookup, lookup, same]
  generalize m.memo.lookup m.pos id (m.memoState point) = answer at looked ⊢
  generalize memo.lookup m.pos id (m.memoState point) = answer' at looked ⊢
  obtain ⟨found, table⟩ := answer
  obtain ⟨found', table'⟩ := answer'
  obtain ⟨rfl, entries⟩ : found' = found.map (MemoEntry.map h) ∧ table.Carries h table' := looked
  cases found with
  | none => exact .goto next ⟨rfl, entries⟩
  | some entry =>
      have failed : (entry.map h).failed = entry.failed := rfl
      dsimp only [Option.map_some]
      rw [failed]
      cases entry.failed with
      | true => exact .fail ⟨rfl, entries⟩
      | false =>
          cases label with
          | none => exact .goto skip ⟨rfl, entries⟩
          | some label =>
              have linked : (m.log.map h).link label (entry.result.map h) =
                  (m.log.link label entry.result).map h := m.log.link_map label entry.result
              refine .goto skip ⟨?_, entries⟩
              simp only [logged, image, MemoEntry.map, linked]

theorem image_memoStep (program : Program) (site : Site) (next : InstId) (op : MemoOp InstId) :
    CarriesEffect h (m.memoStep program site next op)
      ((m.image h memo nodes).memoStep program site next op) := by
  unfold memoStep
  cases (Op.memo op).memoId? with
  | none => exact .halt _ ⟨rfl, entries⟩
  | some id =>
      dsimp only
      cases program.memoPoint? id with
      | none => exact .halt _ ⟨rfl, entries⟩
      | some point =>
          cases op with
          | lookup _ skip => exact image_lookup entries next skip id point none
          | treeLookup _ label skip => exact image_lookup entries next skip id point (some label)
          | store _ => exact image_storeMatch entries site next id point none
          | treeStore _ => exact image_storeMatch entries site next id point m.log.latestLinked
          | storeFailure _ => exact image_storeFailure entries id point

/-! ### Steps -/

theorem image_exec {task : Task σ τ} {factory' : TreeFactory σ' τ'}
    (carries : task.factory.Carries h factory') (place : InstId) (inst : Inst InstId) :
    CarriesEffect h (m.exec task place inst)
      ((m.image h memo nodes).exec ⟨task.program, task.input, factory'⟩ place inst) := by
  unfold exec
  cases inst.op with
  | control op => exact image_control entries _ inst.next op
  | test pattern policy =>
      dsimp only
      cases task.program.pattern? pattern with
      | none => exact .halt _ ⟨rfl, entries⟩
      | some pattern => exact image_test entries task.input inst.next pattern policy
  | dispatch table consume =>
      dsimp only
      cases task.program.dispatch? table with
      | none => exact .halt _ ⟨rfl, entries⟩
      | some table => exact image_dispatch entries task.input table consume
  | tree op => exact image_treeStep entries carries _ inst.next op
  | bindings op => exact image_bindingStep entries _ inst.next op
  | count op => exact image_countStep entries task.input _ inst.next op
  | memo op => exact image_memoStep entries task.program _ inst.next op

theorem image_fail (place : InstId) :
    CarriesTransition h (m.fail place) ((m.image h memo nodes).fail place) := by
  unfold fail
  rw [innermost_image, catchIndex_image]
  cases free : m.catchIndex with
  | none =>
      refine .goto .exitFail ⟨?_, entries⟩
      simp only [image, free]
  | some catcher =>
      dsimp only
      cases m.innermost ⟨place, .control .fail⟩ with
      | error cause => exact .halt _ ⟨rfl, entries⟩
      | ok found =>
          obtain ⟨index, point⟩ := found
          exact .goto point.failure (image_resume entries index point)

end Image

/-! ### Runs -/

theorem Carries.exists_image {m : Machine σ τ} {m' : Machine σ' τ'} (carries : m.Carries h m') :
    ∃ memo nodes, m.memo.Carries h memo ∧ m' = m.image h memo nodes :=
  ⟨m'.memo, m'.nodes, carries.entries, carries.same⟩

theorem CarriesEffect.settle {effect : Effect σ τ} {effect' : Effect σ' τ'}
    (carries : CarriesEffect h effect effect') (place : InstId) :
    CarriesTransition h (settle place effect) (settle place effect') := by
  cases carries with
  | goto target carries => exact .goto target carries
  | halt reason carries => exact .halt reason carries
  | fail carries =>
      obtain ⟨memo, nodes, entries, rfl⟩ := carries.exists_image
      exact image_fail entries place

section Runs

variable {task : Task σ τ} {factory' : TreeFactory σ' τ'}
  (factories : task.factory.Carries h factory')

include factories

theorem Carries.step {m : Machine σ τ} {m' : Machine σ' τ'} (carries : m.Carries h m')
    (place : InstId) :
    CarriesTransition h (m.step task place)
      (m'.step ⟨task.program, task.input, factory'⟩ place) := by
  obtain ⟨memo, nodes, entries, rfl⟩ := carries.exists_image
  unfold Machine.step
  dsimp only
  cases task.program.inst? place with
  | none => exact .halt .trap ⟨rfl, entries⟩
  | some inst => exact (image_exec entries factories place inst).settle place

/-- The two runs halt together, for the same reason and with machines that are images. -/
theorem Carries.steps {m : Machine σ τ} {m' : Machine σ' τ'} (carries : m.Carries h m')
    (fuel : Nat) (place : InstId) :
    (steps task fuel place m = none ∧
        steps ⟨task.program, task.input, factory'⟩ fuel place m' = none) ∨
      ∃ reason m₁ m₁', steps task fuel place m = some (reason, m₁) ∧
        steps ⟨task.program, task.input, factory'⟩ fuel place m' = some (reason, m₁') ∧
        m₁.Carries h m₁' := by
  induction fuel generalizing place m m' with
  | zero => exact .inl ⟨rfl, rfl⟩
  | succ fuel ih =>
      rw [Machine.steps, Machine.steps]
      have stepped := carries.step factories place
      generalize m.step task place = transition at stepped ⊢
      generalize m'.step ⟨task.program, task.input, factory'⟩ place = transition' at stepped ⊢
      cases stepped with
      | goto target carries => exact ih carries target
      | halt reason carries => exact .inr ⟨reason, _, _, rfl, rfl, carries⟩

end Runs

theorem Carries.initial (h : τ → τ') (program : Program) (options : Options) (nodes : σ)
    (nodes' : σ') : (initial program options nodes).Carries h (initial program options nodes') := by
  have log : (TreeLog.new options.tree : TreeLog τ).map h = TreeLog.new options.tree :=
    TreeLog.new_map options.tree
  refine ⟨?_, MemoTable.Carries.made h (.ofOptions options program.memoPoints.size)⟩
  simp only [Machine.initial, image, log]

theorem Carries.push {m : Machine σ τ} {m' : Machine σ' τ'} (carries : m.Carries h m')
    (frame : Frame) : (m.push frame).Carries h (m'.push frame) := by
  obtain ⟨memo, nodes, entries, rfl⟩ := carries.exists_image
  exact ⟨rfl, entries⟩

theorem Carries.tally {m : Machine σ τ} {m' : Machine σ' τ'} (carries : m.Carries h m') :
    m.tally.Carries h m'.tally := by
  obtain ⟨memo, nodes, entries, rfl⟩ := carries.exists_image
  refine ⟨?_, entries⟩
  simp only [Machine.tally, image, entries.stored, entries.used, entries.invalidated]

end Machine

/-! ### Reports -/

def Outcome.map (h : τ → τ') (outcome : Outcome τ) : Outcome τ' :=
  ⟨outcome.matched, outcome.tree.map h, outcome.position, outcome.maxPosition, outcome.stats,
    outcome.rejectUnconsumed⟩

/-- What an answer tells, its tree read through a function. The state that the factory is left in is
not part of it. -/
def Answer.told (h : τ → τ') : Answer σ τ → Answer Unit τ'
  | .outcome report _ => .outcome (report.map h) ()
  | .fault cause => .fault cause
  | .trap => .trap

namespace Machine

theorem Carries.outcome {task : Task σ τ} {factory' : TreeFactory σ' τ'}
    (factories : task.factory.Carries h factory') {m : Machine σ τ} {m' : Machine σ' τ'}
    (carries : m.Carries h m') (options : Options) (matched : Bool) :
    (m'.outcome ⟨task.program, task.input, factory'⟩ options matched).1 =
      (m.outcome task options matched).1.map h := by
  obtain ⟨memo, nodes, entries, rfl⟩ := carries.exists_image
  cases matched with
  | false => rfl
  | true =>
      have tree := TreeLog.parseResult_map factories m.log 0 m.pos m.nodes nodes
      exact congrArg (fun tree => (⟨true, some tree, m.pos, m.maxPosition, m.stats,
        options.unconsumed⟩ : Outcome τ')) tree

end Machine

theorem execute_told {task : Task σ τ} {factory' : TreeFactory σ' τ'}
    (factories : task.factory.Carries h factory') (fuel : Nat) (start : InstId) (options : Options)
    (nodes : σ) (nodes' : σ') :
    (execute ⟨task.program, task.input, factory'⟩ fuel start options nodes').map (Answer.told id) =
      (execute task fuel start options nodes).map (Answer.told h) := by
  have entered := (Machine.Carries.initial h task.program options nodes nodes').push (.ret .exitOk)
  unfold execute
  rw [Machine.run_eq_leave, Machine.run_eq_leave]
  rcases entered.steps factories fuel start with
    ⟨runs, runs'⟩ | ⟨reason, m, m', halts, halts', carries⟩
  · rw [runs, runs']
    rfl
  · rw [halts, halts']
    cases reason with
    | fault cause => rfl
    | trap => rfl
    | exit matched =>
        have same := carries.tally.outcome factories options matched
        have kept (outcome : Outcome τ') : outcome.map id = outcome := by
          rw [Outcome.map, Option.map_id]
          rfl
        simp only [Option.map_some, Machine.leave, Answer.told, same, kept]

namespace Parser

/-- Whatever factory builds the nodes, a parse takes the same way to the same report. Where the
values of the factory are those of a function of the node, the value of a match is the tree of
`parse`, folded with that function. -/
theorem parseWith_folds_parse {factory : TreeFactory σ τ} {f : Node τ → τ}
    (computes : factory.Computes f) (parser : Parser) (input : Input) (nodes : σ) (fuel : Nat) :
    (parser.parseWith input factory nodes fuel).map (Answer.told id) =
      (parser.parse input fuel).map (Answer.told (Tree.fold f)) := by
  let task : Task Unit Tree := ⟨parser.program, input, Tree.factory⟩
  have folds : task.factory.Carries (Tree.fold f) factory := Tree.carries_fold computes
  exact execute_told folds fuel parser.program.start parser.options () nodes

/-- A program that makes a node of the byte `a`, goes back, and attaches the node once more from the
memo table. -/
def attachAgain : Program where
  insts := #[⟨.control (.exit false), .exitFail⟩, ⟨.control (.exit true), .exitOk⟩,
    ⟨.tree (.node 0), ⟨3⟩⟩, ⟨.control (.alt ⟨11⟩), ⟨4⟩⟩,
    ⟨.memo (.treeLookup ⟨0⟩ .null ⟨10⟩), ⟨5⟩⟩, ⟨.control (.alt .exitFail), ⟨6⟩⟩,
    ⟨.tree .checkpoint, ⟨7⟩⟩, ⟨.test (.byte 0x61) .once, ⟨8⟩⟩, ⟨.tree (.node 0), ⟨9⟩⟩,
    ⟨.tree (.emit .null), ⟨12⟩⟩, ⟨.control .fail, .exitFail⟩,
    ⟨.memo (.treeLookup ⟨0⟩ .null .exitOk), .exitFail⟩, ⟨.memo (.treeStore ⟨0⟩), ⟨10⟩⟩]
  sets := .empty
  literals := .empty
  dispatch := #[]
  memoPoints := #[⟨.null, true, false⟩]
  symbols := .initial
  start := ⟨2⟩

def broughtTree? : Answer σ τ → Option τ
  | .outcome report _ => report.tree
  | _ => none

/-- A factory that counts the nodes of a tree, and in its state all the nodes it made. -/
def counting : TreeFactory Nat Nat :=
  ⟨fun node made => (node.children.foldl (fun n child => n + child.2) 1, made + 1)⟩

theorem parseWith_folds_parse_attached :
    let parser : Parser := ⟨attachAgain, { Options.initial with slots := some 1 }⟩
    let input : Input := .ofBytes #[0x61]
    let size (node : Node Nat) : Nat := node.children.foldl (fun n child => n + child.2) 1
    counting.Computes size ∧
      ((parser.parseWith input counting 0 20).map (Answer.told id)).bind broughtTree? = some 2 := by
  intro parser input size
  have computes : counting.Computes size := fun node made => rfl
  have folded : ((parser.parse input 20).map (Answer.told (Tree.fold size))).bind broughtTree? =
      some 2 := by
    decide +kernel
  refine ⟨computes, ?_⟩
  rw [parseWith_folds_parse computes]
  exact folded

end Parser

end Packrat
