/-
Machines that differ only in tree construction: in the log, in the nodes, in the marks of the log that
are on the stack, and in the nodes of memoized outcomes. No instruction reads any of these for anything
but tree construction, so both machines take the same way, whatever the program does.
-/

import Packrat.Proofs.Machine.Execution
import Packrat.Proofs.Memo.Alike

namespace Packrat

/-! ### Frames without marks of the log -/

def ChoicePoint.bare (point : ChoicePoint) : ChoicePoint :=
  { point with tree := TreeLog.startMark }

theorem ChoicePoint.bare_inj {point point' : ChoicePoint} (same : point.bare = point'.bare) :
    point.failure = point'.failure ∧ point.pos = point'.pos ∧
      point.bindings = point'.bindings ∧ point.outer = point'.outer := by
  simp only [ChoicePoint.bare, ChoicePoint.mk.injEq] at same
  obtain ⟨failure, pos, _, bindings, outer⟩ := same
  exact ⟨failure, pos, bindings, outer⟩

def Frame.bare : Frame → Frame
  | .choice point => .choice point.bare
  | .tree _ => .tree TreeLog.startMark
  | frame => frame

theorem Frame.kind_bare (frame : Frame) : frame.bare.kind = frame.kind := by
  cases frame <;> rfl

/-- What is read from a frame and then seen through `plain` does not depend on marks of the log. -/
def Frame.ReadsBare {α β : Type} (read : Frame → Option α) (plain : α → β) : Prop :=
  ∀ frame : Frame, (read frame.bare).map plain = (read frame).map plain

namespace Frame.ReadsBare

theorem choice? : ReadsBare Frame.choice? ChoicePoint.bare := by
  intro frame
  cases frame <;> rfl

theorem ret? : ReadsBare Frame.ret? id := by
  intro frame
  cases frame <;> rfl

theorem position? : ReadsBare Frame.position? id := by
  intro frame
  cases frame <;> rfl

theorem tree? : ReadsBare Frame.tree? fun _ => () := by
  intro frame
  cases frame <;> rfl

theorem bindings? : ReadsBare Frame.bindings? id := by
  intro frame
  cases frame <;> rfl

theorem congr {α β : Type} {read : Frame → Option α} {plain : α → β}
    (reads : ReadsBare read plain) {frame frame' : Frame} (same : frame.bare = frame'.bare) :
    (read frame).map plain = (read frame').map plain := by
  rw [← reads frame, same, reads frame']

end Frame.ReadsBare

namespace Machine

variable {σ τ : Type} {m m' : Machine σ τ}

structure Alike (m m' : Machine σ τ) : Prop where
  pos : m.pos = m'.pos
  head : m.head = m'.head
  frames : m.frames.map Frame.bare = m'.frames.map Frame.bare
  catchIndex : m.catchIndex = m'.catchIndex
  bindings : m.bindings = m'.bindings
  memo : m.memo.Alike m'.memo
  stats : m.stats = m'.stats

namespace Alike

/-! ### Changes of both machines -/

theorem refl (m : Machine σ τ) : Alike m m :=
  ⟨rfl, rfl, rfl, rfl, rfl, .refl _, rfl⟩

theorem moved (alike : Alike m m') (pos : Nat) :
    Alike { m with pos := pos } { m' with pos := pos } :=
  { alike with pos := rfl }

theorem rollback (alike : Alike m m') (pos : Nat) : Alike (m.rollback pos) (m'.rollback pos) := by
  have head : max m.head m.pos = max m'.head m'.pos := by rw [alike.head, alike.pos]
  exact { alike with pos := rfl, head := head }

theorem advance (alike : Alike m m') (length : Nat) :
    Alike (m.advance length) (m'.advance length) :=
  { alike with pos := congrArg (· + length) alike.pos }

theorem push (alike : Alike m m') {frame frame' : Frame} (same : frame.bare = frame'.bare) :
    Alike (m.push frame) (m'.push frame') := by
  have frames : (m.frames.push frame).map Frame.bare = (m'.frames.push frame').map Frame.bare := by
    rw [Array.map_push, Array.map_push, alike.frames, same]
  exact { alike with frames := frames }

theorem drop (alike : Alike m m') : Alike m.drop m'.drop := by
  have frames : m.frames.pop.map Frame.bare = m'.frames.pop.map Frame.bare := by
    rw [Array.map_pop, Array.map_pop, alike.frames]
  exact { alike with frames := frames }

theorem logged (alike : Alike m m') (change change' : TreeLog τ → TreeLog τ) :
    Alike (m.logged change) (m'.logged change') :=
  { alike with }

theorem withBindings (alike : Alike m m') (change : Bindings → Bindings) :
    Alike (m.withBindings change) (m'.withBindings change) :=
  { alike with bindings := congrArg change alike.bindings }

theorem counted (alike : Alike m m') (change : RunStats → RunStats) :
    Alike { m with stats := change m.stats } { m' with stats := change m'.stats } :=
  { alike with stats := congrArg change alike.stats }

theorem size (alike : Alike m m') : m.frames.size = m'.frames.size := by
  have sizes := congrArg Array.size alike.frames
  rw [Array.size_map, Array.size_map] at sizes
  exact sizes

theorem pushChoice (alike : Alike m m') (failure : InstId) :
    Alike (m.pushChoice failure) (m'.pushChoice failure) := by
  have frames : (m.pushChoice failure).frames.map Frame.bare =
      (m'.pushChoice failure).frames.map Frame.bare := by
    simp only [Machine.pushChoice, Array.map_push, alike.frames, Frame.bare, ChoicePoint.bare,
      alike.pos, alike.bindings, alike.catchIndex]
  exact { alike with frames := frames, catchIndex := congrArg some alike.size }

theorem cut (alike : Alike m m') (index : Nat) {point point' : ChoicePoint}
    (same : point.bare = point'.bare) : Alike (m.cut index point) (m'.cut index point') := by
  have frames : (m.frames.shrink index).map Frame.bare = (m'.frames.shrink index).map Frame.bare := by
    apply Array.toList_inj.mp
    rw [Array.toList_map, Array.toList_map, Array.toList_shrink, Array.toList_shrink, List.map_take,
      List.map_take, ← Array.toList_map, ← Array.toList_map, alike.frames]
  obtain ⟨_, _, _, outer⟩ := ChoicePoint.bare_inj same
  exact { alike with frames := frames, catchIndex := outer }

theorem renewChoice (alike : Alike m m') (index : Nat) {point point' : ChoicePoint}
    (same : point.bare = point'.bare) :
    Alike (m.renewChoice index point) (m'.renewChoice index point') := by
  obtain ⟨failure, _, _, outer⟩ := ChoicePoint.bare_inj same
  have frames : (m.renewChoice index point).frames.map Frame.bare =
      (m'.renewChoice index point').frames.map Frame.bare := by
    simp only [Machine.renewChoice, Array.map_setIfInBounds, alike.frames, Frame.bare,
      ChoicePoint.bare, alike.pos, alike.bindings, failure, outer]
  exact { alike with frames := frames }

theorem resume (alike : Alike m m') (index : Nat) {point point' : ChoicePoint}
    (same : point.bare = point'.bare) :
    Alike (m.resume index point) (m'.resume index point') := by
  obtain ⟨_, pos, mark, _⟩ := ChoicePoint.bare_inj same
  have cut := alike.cut index same
  refine ⟨pos, ?_, cut.frames, cut.catchIndex, ?_, cut.memo, ?_⟩
  · change max m.head m.pos = max m'.head m'.pos
    rw [alike.head, alike.pos]
  · change m.bindings.restore point.bindings = m'.bindings.restore point'.bindings
    rw [alike.bindings, mark]
  · change m.stats.backtrack point.pos m.pos m.head = m'.stats.backtrack point'.pos m'.pos m'.head
    rw [alike.stats, alike.pos, alike.head, pos]

/-! ### What both machines read -/

theorem frame? (alike : Alike m m') (index : Nat) :
    m.frames[index]?.map Frame.bare = m'.frames[index]?.map Frame.bare := by
  rw [← Array.getElem?_map, ← Array.getElem?_map, alike.frames]

theorem back? (alike : Alike m m') :
    m.frames.back?.map Frame.bare = m'.frames.back?.map Frame.bare := by
  rw [Array.back?_eq_getElem?, Array.back?_eq_getElem?, alike.size]
  exact alike.frame? _

theorem mismatch (alike : Alike m m') (site : Site) (expected : FrameKind) (index : Nat) :
    m.mismatch site expected index = m'.mismatch site expected index := by
  have kinds (found : Option Frame) : (found.map Frame.bare).map Frame.kind = found.map Frame.kind := by
    cases found with
    | none => rfl
    | some frame => exact congrArg some frame.kind_bare
  unfold Machine.mismatch
  rw [← kinds, alike.frame?, kinds]

/-- Both machines find a choice point in the same place, or are at fault in the same way. -/
theorem innermost (alike : Alike m m') (site : Site) :
    (∃ cause, m.innermost site = .error cause ∧ m'.innermost site = .error cause) ∨
      ∃ index point point', m.innermost site = .ok (index, point) ∧
        m'.innermost site = .ok (index, point') ∧ point.bare = point'.bare := by
  unfold Machine.innermost
  rw [← alike.catchIndex]
  cases m.catchIndex with
  | none => exact .inl ⟨_, rfl, rfl⟩
  | some index =>
      dsimp only
      have frames := alike.frame? index
      have mismatch := alike.mismatch site .choice index
      cases found : m.frames[index]? with
      | none =>
          rw [found] at frames
          have found' : m'.frames[index]? = none := Option.map_eq_none_iff.mp frames.symm
          rw [found']
          exact .inl ⟨_, rfl, congrArg Except.error mismatch.symm⟩
      | some frame =>
          rw [found] at frames
          obtain ⟨frame', found', same⟩ := Option.map_eq_some_iff.mp frames.symm
          rw [found']
          have points := Frame.ReadsBare.choice?.congr same.symm
          cases reads : frame.choice? with
          | none =>
              rw [reads] at points
              have reads' : frame'.choice? = none := Option.map_eq_none_iff.mp points.symm
              simp only [Option.bind_some, reads, reads']
              exact .inl ⟨_, rfl, congrArg Except.error mismatch.symm⟩
          | some point =>
              rw [reads] at points
              obtain ⟨point', reads', samePoint⟩ := Option.map_eq_some_iff.mp points.symm
              simp only [Option.bind_some, reads, reads']
              exact .inr ⟨index, point, point', rfl, rfl, samePoint.symm⟩

theorem top (alike : Alike m m') (site : Site) (expected : FrameKind) :
    (∃ cause, m.top site expected = .error cause ∧ m'.top site expected = .error cause) ∨
      ∃ frame frame', m.top site expected = .ok frame ∧ m'.top site expected = .ok frame' ∧
        frame.bare = frame'.bare := by
  unfold Machine.top
  dsimp only
  have mismatch := alike.mismatch site expected (m.frames.size - 1)
  rw [← alike.catchIndex, ← alike.size, ← mismatch]
  by_cases caught : m.catchIndex = some (m.frames.size - 1)
  · simp only [caught, if_true]
    exact .inl ⟨_, rfl, rfl⟩
  · simp only [caught, if_false]
    have backs := alike.back?
    cases back : m.frames.back? with
    | none =>
        rw [back] at backs
        have back' : m'.frames.back? = none := Option.map_eq_none_iff.mp backs.symm
        rw [back']
        exact .inl ⟨_, rfl, rfl⟩
    | some frame =>
        rw [back] at backs
        obtain ⟨frame', back', same⟩ := Option.map_eq_some_iff.mp backs.symm
        rw [back']
        exact .inr ⟨frame, frame', rfl, rfl, same.symm⟩

/-- Both machines pop frames with the same content, or are at fault in the same way. -/
theorem popAs (alike : Alike m m') {α β : Type} {read : Frame → Option α} {plain : α → β}
    (reads : Frame.ReadsBare read plain) (expected : FrameKind) (site : Site) :
    (∃ cause m₁ m₁', m.popAs read expected site = .error (cause, m₁) ∧
        m'.popAs read expected site = .error (cause, m₁') ∧ Alike m₁ m₁') ∨
      ∃ content content' m₁ m₁', m.popAs read expected site = .ok (content, m₁) ∧
        m'.popAs read expected site = .ok (content', m₁') ∧ plain content = plain content' ∧
        Alike m₁ m₁' := by
  unfold Machine.popAs
  rcases alike.top site expected with ⟨cause, top, top'⟩ | ⟨frame, frame', top, top', same⟩
  · rw [top, top']
    exact .inl ⟨cause, m, m', rfl, rfl, alike⟩
  · rw [top, top']
    have contents := reads.congr same
    have kind : frame.kind = frame'.kind := by
      rw [← frame.kind_bare, same, frame'.kind_bare]
    cases here : read frame with
    | none =>
        rw [here] at contents
        have here' : read frame' = none := Option.map_eq_none_iff.mp contents.symm
        simp only [here, here', kind]
        exact .inl ⟨_, m.drop, m'.drop, rfl, rfl, alike.drop⟩
    | some content =>
        rw [here] at contents
        obtain ⟨content', here', plain_eq⟩ := Option.map_eq_some_iff.mp contents.symm
        simp only [here, here']
        exact .inr ⟨content, content', m.drop, m'.drop, rfl, rfl, plain_eq.symm, alike.drop⟩

end Alike

/-! ### Instructions -/

inductive SameEffect : Effect σ τ → Effect σ τ → Prop
  | goto (target : InstId) {m m' : Machine σ τ} (alike : Alike m m') :
      SameEffect (.goto target m) (.goto target m')
  | fail {m m' : Machine σ τ} (alike : Alike m m') : SameEffect (.fail m) (.fail m')
  | halt (reason : Halt) {m m' : Machine σ τ} (alike : Alike m m') :
      SameEffect (.halt reason m) (.halt reason m')

namespace Alike

variable (alike : Alike m m') (task : Task σ τ) (site : Site) (next : InstId)

include alike

theorem require (condition : Bool) :
    SameEffect (m.require condition next) (m'.require condition next) := by
  cases condition with
  | false => exact .fail alike
  | true => exact .goto next alike

theorem recheck : SameEffect (m.recheck site next) (m'.recheck site next) := by
  unfold Machine.recheck
  rcases alike.innermost site with
    ⟨cause, found, found'⟩ | ⟨index, point, point', found, found', same⟩
  · rw [found, found']
    exact .halt _ alike
  · rw [found, found']
    obtain ⟨_, pos, _, _⟩ := ChoicePoint.bare_inj same
    dsimp only
    rw [← pos, ← alike.pos]
    by_cases idle : point.pos = m.pos
    · simp only [idle, if_true]
      exact .fail alike
    · simp only [idle, if_false]
      exact .goto next (alike.renewChoice index same)

theorem control (op : ControlOp InstId) :
    SameEffect (m.control site next op) (m'.control site next op) := by
  cases op with
  | nop name => exact .goto next alike
  | exit matched => exact .halt _ alike
  | pos => exact .goto next (alike.push (by rw [alike.pos]))
  | back =>
      simp only [Machine.control, Machine.popPosition]
      rcases alike.popAs Frame.ReadsBare.position? .position site with
        ⟨cause, m₁, m₁', popped, popped', alike'⟩ | ⟨pos, pos', m₁, m₁', popped, popped', same, alike'⟩
      · rw [popped, popped']
        exact .halt _ alike'
      · rw [popped, popped']
        cases same
        exact .goto next (alike'.rollback pos)
  | move shift =>
      simp only [Machine.control, ← alike.pos]
      cases shiftedFrom m.pos shift with
      | none => exact .halt _ alike
      | some pos => exact .goto next (alike.rollback pos)
  | jump target => exact .goto target alike
  | call target after name => exact .goto target (alike.push rfl)
  | ret =>
      simp only [Machine.control]
      rcases alike.popAs Frame.ReadsBare.ret? .ret site with
        ⟨cause, m₁, m₁', popped, popped', alike'⟩ |
          ⟨target, target', m₁, m₁', popped, popped', same, alike'⟩
      · rw [popped, popped']
        exact .halt _ alike'
      · rw [popped, popped']
        cases same
        exact .goto target alike'
  | alt failure => exact .goto next (alike.pushChoice failure)
  | succ =>
      simp only [Machine.control]
      rcases alike.innermost site with
        ⟨cause, found, found'⟩ | ⟨index, point, point', found, found', same⟩
      · rw [found, found']
        exact .halt _ alike
      · rw [found, found']
        exact .goto next (alike.cut index same)
  | fail => exact .fail alike
  | guard => exact alike.recheck site next
  | step => exact alike.recheck site next

theorem test (pattern : Pattern ByteSet Bytes) (policy : Policy) :
    SameEffect (m.test task.input next pattern policy)
      (m'.test task.input next pattern policy) := by
  cases policy with
  | once =>
      simp only [Machine.test, ← alike.pos]
      cases pattern.length? task.input m.pos with
      | none => exact .fail alike
      | some length => exact .goto next (alike.advance length)
  | absent =>
      simp only [Machine.test, ← alike.pos]
      cases pattern.length? task.input m.pos with
      | none => exact .goto next alike
      | some length => exact .fail alike
  | optional =>
      simp only [Machine.test, ← alike.pos]
      cases pattern.length? task.input m.pos with
      | none => exact .goto next alike
      | some length => exact .goto next (alike.advance length)
  | many =>
      simp only [Machine.test, ← alike.pos]
      exact .goto next (alike.moved _)

theorem dispatch (table : DispatchTable InstId) (consume : Bool) :
    SameEffect (m.dispatch task.input table consume) (m'.dispatch task.input table consume) := by
  simp only [Machine.dispatch, ← alike.pos]
  cases table.target? (task.input.byteAt? m.pos) with
  | none => exact .halt _ alike
  | some target =>
      by_cases consumes : (consume && (task.input.byteAt? m.pos).isSome) = true
      · simp only [consumes, if_true]
        exact .goto target (alike.advance 1)
      · simp only [consumes]
        exact .goto target alike

theorem logAt (shift : Int) (intent : Nat → Intent τ) :
    SameEffect (m.logAt site next shift intent) (m'.logAt site next shift intent) := by
  simp only [Machine.logAt, ← alike.pos]
  cases shiftedFrom m.pos shift with
  | none => exact .halt _ alike
  | some pos => exact .goto next (alike.logged _ _)

theorem treeStep (op : TreeOp) :
    SameEffect (m.treeStep task site next op) (m'.treeStep task site next op) := by
  cases op with
  | node shift => exact alike.logAt site next shift _
  | close shift tag value =>
      simp only [Machine.treeStep, ← alike.pos]
      cases shiftedFrom m.pos shift with
      | none => exact .halt _ alike
      | some pos =>
          cases literalValue? task.program value with
          | none => exact .halt _ alike
          | some bytes => exact .goto next (alike.logged _ _)
  | tag name => exact .goto next (alike.logged _ _)
  | replace value =>
      simp only [Machine.treeStep]
      cases task.program.literal? value with
      | none => exact .halt _ alike
      | some bytes => exact .goto next (alike.logged _ _)
  | fold shift label => exact alike.logAt site next shift _
  | push => exact .goto next (alike.logged _ _)
  | pop label => exact .goto next (alike.logged _ _)
  | checkpoint => exact .goto next (alike.push rfl)
  | emit label =>
      simp only [Machine.treeStep]
      rcases alike.popAs Frame.ReadsBare.tree? .tree site with
        ⟨cause, m₁, m₁', popped, popped', alike'⟩ | ⟨mark, mark', m₁, m₁', popped, popped', _, alike'⟩
      · rw [popped, popped']
        exact .halt _ alike'
      · rw [popped, popped']
        exact .goto next { alike' with }

theorem requireCaptured (condition : Bindings → Bytes → Bool) :
    SameEffect (m.requireCaptured task.input site next condition)
      (m'.requireCaptured task.input site next condition) := by
  simp only [Machine.requireCaptured, Machine.popPosition]
  rcases alike.popAs Frame.ReadsBare.position? .position site with
    ⟨cause, m₁, m₁', popped, popped', alike'⟩ | ⟨start, start', m₁, m₁', popped, popped', same, alike'⟩
  · rw [popped, popped']
    exact .halt _ alike'
  · rw [popped, popped']
    cases same
    dsimp only
    rw [← alike'.bindings, ← alike'.pos]
    exact alike'.require next _

theorem bindingStep (op : BindingOp) :
    SameEffect (m.bindingStep task site next op) (m'.bindingStep task site next op) := by
  cases op with
  | enter => exact .goto next (alike.push (by rw [alike.bindings]))
  | leave =>
      simp only [Machine.bindingStep]
      rcases alike.popAs Frame.ReadsBare.bindings? .bindings site with
        ⟨cause, m₁, m₁', popped, popped', alike'⟩ | ⟨mark, mark', m₁, m₁', popped, popped', same, alike'⟩
      · rw [popped, popped']
        exact .halt _ alike'
      · rw [popped, popped']
        cases same
        exact .goto next (alike'.withBindings _)
  | mask table =>
      have pushed : Alike (m.push (.bindings m.bindings.save)) (m'.push (.bindings m'.bindings.save)) :=
        alike.push (by rw [alike.bindings])
      exact .goto next (pushed.withBindings _)
  | define table =>
      simp only [Machine.bindingStep, Machine.popPosition]
      rcases alike.popAs Frame.ReadsBare.position? .position site with
        ⟨cause, m₁, m₁', popped, popped', alike'⟩ |
          ⟨start, start', m₁, m₁', popped, popped', same, alike'⟩
      · rw [popped, popped']
        exact .halt _ alike'
      · rw [popped, popped']
        cases same
        dsimp only
        rw [← alike'.pos]
        exact .goto next (alike'.withBindings _)
  | bound table =>
      simp only [Machine.bindingStep, ← alike.bindings]
      exact alike.require next _
  | holds table lit =>
      simp only [Machine.bindingStep, ← alike.bindings]
      cases task.program.literal? lit with
      | none => exact .halt _ alike
      | some bytes => exact alike.require next _
  | consume table =>
      simp only [Machine.bindingStep, ← alike.bindings, ← alike.pos]
      cases m.bindings.lookup table with
      | none => exact .goto next alike
      | some bytes =>
          by_cases here : task.input.matchesAt m.pos bytes = true
          · simp only [here, if_true]
            exact .goto next (alike.advance bytes.size)
          · simp only [here]
            exact .fail alike
  | isLatest table =>
      exact alike.requireCaptured task site next fun bindings bytes => bindings.isLatest table bytes
  | isVisible table =>
      exact alike.requireCaptured task site next fun bindings bytes => bindings.contains table bytes

theorem countStep (op : CountOp InstId) :
    SameEffect (m.countStep task.input site next op) (m'.countStep task.input site next op) := by
  cases op with
  | scan mask shift =>
      simp only [Machine.countStep, Machine.popPosition]
      rcases alike.popAs Frame.ReadsBare.position? .position site with
        ⟨cause, m₁, m₁', popped, popped', alike'⟩ |
          ⟨start, start', m₁, m₁', popped, popped', same, alike'⟩
      · rw [popped, popped']
        exact .halt _ alike'
      · rw [popped, popped']
        cases same
        dsimp only
        rw [← alike'.pos]
        exact .goto next (alike'.push rfl)
  | dec done =>
      simp only [Machine.countStep, ← alike.size, ← alike.mismatch]
      have backs := alike.back?
      cases back : m.frames.back? with
      | none =>
          rw [back] at backs
          have back' : m'.frames.back? = none := Option.map_eq_none_iff.mp backs.symm
          rw [back']
          exact .halt _ alike
      | some frame =>
          rw [back] at backs
          obtain ⟨frame', back', same⟩ := Option.map_eq_some_iff.mp backs.symm
          rw [back']
          cases frame with
          | count left =>
              have same' : frame' = .count left := by cases frame' <;> cases same; rfl
              subst same'
              by_cases spent : left = 0
              · simp only [spent, if_true]
                exact .goto done alike.drop
              · simp only [spent, if_false]
                exact .goto next (alike.drop.push rfl)
          | choice | ret | position | tree | bindings =>
              cases frame' <;> first | cases same; done | exact .halt _ alike

theorem memoState (info : MemoPoint) : m.memoState info = m'.memoState info := by
  unfold Machine.memoState
  rw [alike.bindings]

theorem storeMatch (id : MemoId) (info : MemoPoint) (result result' : Option τ) :
    SameEffect (m.storeMatch site next id info result) (m'.storeMatch site next id info result') := by
  unfold Machine.storeMatch
  rcases alike.innermost site with
    ⟨cause, found, found'⟩ | ⟨index, choice, choice', found, found', same⟩
  · rw [found, found']
    exact .halt _ alike
  · rw [found, found']
    obtain ⟨_, pos, mark, _⟩ := ChoicePoint.bare_inj same
    have cut := alike.cut index same
    refine .goto next { cut with memo := ?_ }
    dsimp only
    rw [← pos]
    apply cut.memo.record
    simp only [MemoEntry.bare, ← cut.pos, ← cut.bindings, pos, mark]

theorem lookup (skip : InstId) (id : MemoId) (info : MemoPoint) (label : Option Symbol) :
    SameEffect (m.lookup next skip id info label) (m'.lookup next skip id info label) := by
  obtain ⟨entries, table⟩ := alike.memo.lookup m.pos id (m.memoState info)
  have looked : Alike { m with memo := (m.memo.lookup m.pos id (m.memoState info)).2 }
      { m' with memo := (m'.memo.lookup m.pos id (m.memoState info)).2 } :=
    { alike with memo := table }
  have key : m'.memo.lookup m'.pos id (m'.memoState info) =
      m'.memo.lookup m.pos id (m.memoState info) := by
    rw [← alike.pos, ← alike.memoState]
  simp only [Machine.lookup, key]
  cases found : (m.memo.lookup m.pos id (m.memoState info)).1 with
  | none =>
      rw [found] at entries
      have found' := Option.map_eq_none_iff.mp entries.symm
      rw [found']
      exact .goto next (looked.counted fun stats => stats.countPoint id.index PointStats.miss)
  | some entry =>
      rw [found] at entries
      obtain ⟨entry', found', same⟩ := Option.map_eq_some_iff.mp entries.symm
      obtain ⟨failed, consumed, _⟩ := MemoEntry.bare_inj same
      rw [found']
      dsimp only
      rw [failed, consumed]
      by_cases refused : entry.failed = true
      · simp only [refused, if_true]
        exact .fail (looked.counted fun stats => stats.countPoint id.index PointStats.failHit)
      · simp only [refused]
        have skipped := (looked.advance entry.consumed).counted fun stats =>
          stats.countPoint id.index fun stats => stats.hit entry.consumed
        cases label with
        | none => exact .goto skip skipped
        | some label => exact .goto skip (skipped.logged _ _)

theorem memoStep (op : MemoOp InstId) :
    SameEffect (m.memoStep task.program site next op) (m'.memoStep task.program site next op) := by
  unfold Machine.memoStep
  cases (Op.memo op).memoId? with
  | none => exact .halt _ alike
  | some id =>
      cases known : task.program.memoPoint? id with
      | none =>
          simp only [known]
          exact .halt _ alike
      | some info =>
          simp only [known]
          cases op with
          | lookup _ skip => exact alike.lookup next skip id info none
          | treeLookup _ label skip => exact alike.lookup next skip id info (some label)
          | store _ => exact alike.storeMatch site next id info _ _
          | treeStore _ => exact alike.storeMatch site next id info _ _
          | storeFailure _ =>
              refine .fail { alike with memo := ?_ }
              rw [alike.pos, alike.memoState]
              exact alike.memo.record m'.pos id rfl

theorem exec (place : InstId) (inst : Inst InstId) :
    SameEffect (m.exec task place inst) (m'.exec task place inst) := by
  obtain ⟨op, next⟩ := inst
  cases op with
  | control op => exact alike.control _ next op
  | test pattern policy =>
      simp only [Machine.exec]
      cases task.program.pattern? pattern with
      | none => exact .halt _ alike
      | some held => exact alike.test task next held policy
  | dispatch table consume =>
      simp only [Machine.exec]
      cases task.program.dispatch? table with
      | none => exact .halt _ alike
      | some held => exact alike.dispatch task held consume
  | tree op => exact alike.treeStep task _ next op
  | bindings op => exact alike.bindingStep task _ next op
  | count op => exact alike.countStep task _ next op
  | memo op => exact alike.memoStep task _ next op

end Alike

/-! ### Runs -/

inductive SameTransition : Transition σ τ → Transition σ τ → Prop
  | goto (target : InstId) {m m' : Machine σ τ} (alike : Alike m m') :
      SameTransition (.goto target m) (.goto target m')
  | halt (reason : Halt) {m m' : Machine σ τ} (alike : Alike m m') :
      SameTransition (.halt reason m) (.halt reason m')

theorem Alike.fail (alike : Alike m m') (place : InstId) :
    SameTransition (m.fail place) (m'.fail place) := by
  have stats : m.stats.backtrack m.pos m.pos m.head = m'.stats.backtrack m'.pos m'.pos m'.head := by
    rw [alike.stats, alike.pos, alike.head]
  unfold Machine.fail
  rw [← alike.catchIndex]
  cases m.catchIndex with
  | none => exact .goto .exitFail { alike with catchIndex := rfl, stats := stats }
  | some index =>
      rcases alike.innermost ⟨place, .control .fail⟩ with
        ⟨cause, found, found'⟩ | ⟨index, point, point', found, found', same⟩
      · rw [found, found']
        exact .halt _ alike
      · rw [found, found']
        obtain ⟨failure, _⟩ := ChoicePoint.bare_inj same
        dsimp only
        rw [failure]
        exact .goto _ (alike.resume index same)

theorem SameEffect.settle {effect effect' : Effect σ τ} (same : SameEffect effect effect')
    (place : InstId) : SameTransition (settle place effect) (settle place effect') := by
  cases same with
  | goto target alike => exact .goto target alike
  | fail alike => exact alike.fail place
  | halt reason alike => exact .halt reason alike

theorem Alike.step (alike : Alike m m') (task : Task σ τ) (place : InstId) :
    SameTransition (m.step task place) (m'.step task place) := by
  unfold Machine.step
  cases task.program.inst? place with
  | none => exact .halt .trap alike
  | some inst => exact (alike.exec task place inst).settle place

/-- Where a number of steps lead. A run that has halted stays as it is. -/
def advanceBy (task : Task σ τ) : (count : Nat) → Transition σ τ → Transition σ τ
  | 0, transition => transition
  | count + 1, .goto target m => advanceBy task count (m.step task target)
  | _ + 1, .halt reason m => .halt reason m

theorem SameTransition.advanceBy (task : Task σ τ) (count : Nat) {transition transition' : Transition σ τ}
    (same : SameTransition transition transition') :
    SameTransition (advanceBy task count transition) (advanceBy task count transition') := by
  induction count generalizing transition transition' with
  | zero => exact same
  | succ count ih =>
      cases same with
      | goto target alike => exact ih (alike.step task target)
      | halt reason alike => exact .halt reason alike

theorem advanceBy_halt (task : Task σ τ) (count : Nat) (reason : Halt) (m : Machine σ τ) :
    advanceBy task count (.halt reason m) = .halt reason m := by
  cases count <;> rfl

def halted? : Transition σ τ → Option (Halt × Machine σ τ)
  | .goto _ _ => none
  | .halt reason m => some (reason, m)

theorem steps_eq_advanceBy (task : Task σ τ) (fuel : Nat) (place : InstId) (m : Machine σ τ) :
    steps task fuel place m = halted? (advanceBy task fuel (.goto place m)) := by
  induction fuel generalizing place m with
  | zero => rfl
  | succ fuel ih =>
      rw [steps, advanceBy]
      cases m.step task place with
      | goto target m₁ => exact ih target m₁
      | halt reason m₁ =>
          rw [advanceBy_halt]
          rfl

theorem Alike.leave (alike : Alike m m') (reason : Halt) :
    Alike (m.leave reason) (m'.leave reason) := by
  cases reason with
  | exit matched =>
      have stats : m.tally.stats = m'.tally.stats := by
        simp only [tally, alike.stats, alike.memo.stored, alike.memo.used, alike.memo.invalidated]
      exact { alike with stats := stats }
  | fault cause => exact alike
  | trap => exact alike

/-- Runs of machines that are alike halt for the same reason and leave machines that are alike, or
none of them halts. -/
theorem Alike.run (alike : Alike m m') (task : Task σ τ) (fuel : Nat) (start : InstId) :
    (m.run task fuel start = none ∧ m'.run task fuel start = none) ∨
      ∃ reason m₁ m₁', m.run task fuel start = some (reason, m₁) ∧
        m'.run task fuel start = some (reason, m₁') ∧ Alike m₁ m₁' := by
  have entered : Alike (m.push (.ret .exitOk)) (m'.push (.ret .exitOk)) := alike.push rfl
  have same := (SameTransition.goto start entered).advanceBy task fuel
  rw [run_eq_leave, run_eq_leave, steps_eq_advanceBy, steps_eq_advanceBy]
  generalize Machine.advanceBy task fuel (.goto start (m.push (.ret .exitOk))) = ended at same ⊢
  generalize Machine.advanceBy task fuel (.goto start (m'.push (.ret .exitOk))) = ended' at same ⊢
  cases same with
  | goto target alike' => exact .inl ⟨rfl, rfl⟩
  | halt reason alike' => exact .inr ⟨reason, _, _, rfl, rfl, alike'.leave reason⟩

end Machine

end Packrat
