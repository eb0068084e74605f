/-
Backtracking brings back the state that a choice point saved. A guard or the check of a repetition
renews its choice point where it stands. Marks grow on only if that is the top of the stack, so
this is asked of the run. Nothing else is: a run may begin anywhere, also after a fault.
-/

import Packrat.Proofs.Machine.Held

namespace Packrat

namespace Machine

variable {σ τ : Type} {program : Program} {past : List (Config σ τ)} {m m' : Machine σ τ}
  {live : List (Nat × Intent τ)}

/-! ### Failing -/

theorem Held.resume (held : Held program past m live) {index : Nat} {point : ChoicePoint}
    (found : m.frames.toList[index]? = some (.choice point)) :
    Held program past (m.resume index point) (live.take point.tree.number ++ []) := by
  have member : point.tree ∈ m.frames.toList.filterMap Frame.treeMark? :=
    List.mem_filterMap.mpr ⟨_, List.mem_of_getElem? found, rfl⟩
  obtain ⟨free, layout⟩ := held.layout
  obtain ⟨free', aborted⟩ := layout.abort (held.marks _ member)
  have chained : (m.resume index point).Chained := by
    rw [Array.getElem?_toList] at found
    exact held.chained.cut found
  have entries : (m.bindings.restore point.bindings).entries.toList =
      m.bindings.entries.toList.take point.bindings.size ++ [] := by
    rw [Bindings.entries_restore, List.append_nil]
  exact held.retreat chained Array.toList_shrink ⟨free', by rw [List.append_nil]; exact aborted⟩
    (held.settled.restore point.bindings) entries (held.trees.below found rfl)
    (held.tables.below found rfl)

/-- The situation that a failure leads to is the one that the choice point was set in. -/
theorem Held.situation_resume (held : Held program past m live) {index : Nat}
    {point : ChoicePoint} {origin : Machine σ τ}
    (found : m.frames.toList[index]? = some (.choice point)) (kept : Kept m live index point origin) :
    (m.resume index point).situation = origin.situationBelow index := by
  have member : point.tree ∈ m.frames.toList.filterMap Frame.treeMark? :=
    List.mem_filterMap.mpr ⟨_, List.mem_of_getElem? found, rfl⟩
  obtain ⟨free, layout⟩ := held.layout
  obtain ⟨free', aborted⟩ := layout.abort (held.marks _ member)
  have frames : (m.resume index point).frames.toList = origin.frames.toList.take index := by
    rw [← kept.frames]
    exact Array.toList_shrink
  have catchIndex : (m.resume index point).catchIndex =
      lastChoice (origin.frames.toList.take index) := by
    rw [← kept.frames]
    exact held.chained.outer index point found
  have intents : (m.resume index point).log.intents = origin.log.intents := by
    rw [← kept.intents]
    exact aborted.intents_eq
  have bindings : (m.resume index point).bindings.entries.toList =
      origin.bindings.entries.toList := by
    rw [← kept.bindings]
    exact Bindings.entries_restore m.bindings point.bindings
  have state : (m.resume index point).bindings.state = origin.bindings.state :=
    (held.settled.restore point.bindings).state_eq kept.settled bindings
  unfold situation situationBelow
  rw [frames, catchIndex, intents, bindings, state]
  congr 1
  exact kept.pos

theorem Held.fail (held : Held program past m live) (place : InstId) :
    ∃ live', Held program past (reached (m.fail place)) live' := by
  rcases fail_cases m place with failed | same
  · generalize reached (m.fail place) = m' at failed ⊢
    cases failed with
    | idle => exact held.edit (.keep ⟨⟨rfl, rfl⟩, rfl, rfl⟩)
    | resume index point caught found =>
        rw [← Array.getElem?_toList] at found
        exact ⟨_, held.resume found⟩
  · rw [same]
    exact ⟨live, held⟩

/-! ### Setting choice points -/

variable {now : Config σ τ} {index : Nat} {inst : Inst InstId}

theorem not_sets (found : program.inst? now.place = some inst)
    (keeps : inst.op.setsChoice = false) : ¬ Sets program now index := by
  intro sets
  cases sets with
  | alt found' =>
      rw [found] at found'
      cases found'
      cases keeps
  | renew checks found' =>
      rw [found] at found'
      cases found'
      rcases checks with rfl | rfl <;> cases keeps

theorem sets_alt {failure next : InstId}
    (found : program.inst? now.place = some ⟨.control (.alt failure), next⟩)
    (sets : Sets program now index) : index = now.machine.frames.size := by
  cases sets with
  | alt => rfl
  | renew checks found' =>
      rw [found] at found'
      cases found'
      rcases checks with same | same <;> cases same

theorem sets_check {op : ControlOp InstId} {next : InstId} (checks : op = .guard ∨ op = .step)
    (found : program.inst? now.place = some ⟨.control op, next⟩) (sets : Sets program now index) :
    now.machine.catchIndex = some index ∧ ∃ point,
      now.machine.frames[index]? = some (.choice point) ∧ point.pos ≠ now.machine.pos := by
  cases sets with
  | alt found' =>
      rw [found] at found'
      cases found'
      rcases checks with same | same <;> cases same
  | renew _ _ caught choice moved => exact ⟨caught, _, choice, moved⟩

theorem fail_of_sets {task : Task σ τ} {place : InstId} {failing : Machine σ τ}
    (sets : inst.op.setsChoice = true) (failed : m.exec task place inst = .fail failing) :
    failing = m := by
  have idle (site : Site) (next : InstId) (failed : m.recheck site next = .fail failing) :
      failing = m := by
    unfold recheck at failed
    cases innermost : m.innermost site with
    | error fault => rw [innermost] at failed; cases failed
    | ok answer =>
        rw [innermost] at failed
        dsimp only at failed
        split at failed
        · cases failed; rfl
        · cases failed
  obtain ⟨op, next⟩ := inst
  cases op with
  | control op =>
      cases op with
      | alt failure => cases failed
      | guard => exact idle _ next failed
      | step => exact idle _ next failed
      | nop | exit | pos | back | move | jump | call | ret | succ | fail => cases sets
  | test | dispatch | tree | bindings | count | memo => cases sets

theorem Held.later (held : Held program past m live)
    (other : ∀ index point, m.frames.toList[index]? = some (.choice point) →
      ¬ Sets program now index) :
    Held program (now :: past) m live := by
  refine ⟨held.chained, held.layout, held.settled, held.marks, held.trees, held.tables,
    fun index point found => ?_⟩
  obtain ⟨origin, set, kept⟩ := held.origins index point found
  exact ⟨origin, set.keep (other index point found), kept⟩

theorem Held.push_choice (held : Held program (now :: past) m live)
    (sets : Sets program now m.frames.size) (pos : m.pos = now.machine.pos)
    (frames : m.frames.toList = now.machine.frames.toList.take m.frames.size)
    (log : m.log = now.machine.log) (bindings : m.bindings = now.machine.bindings)
    (failure : InstId) : Held program (now :: past) (m.pushChoice failure) live := by
  obtain ⟨free, layout⟩ := held.layout
  refine held.concat (held.chained.pushChoice failure) Array.toList_push rfl rfl
    (fun mark marked => by cases marked; rfl) (fun mark marked => by cases marked; rfl)
    fun point same => ?_
  cases same
  refine ⟨now, ⟨[], past, rfl, sets, fun other member => by cases member⟩, pos, ?_, ?_, ?_, ?_⟩
  · rw [← frames]
    exact List.take_of_length_le (Nat.le_of_eq Array.length_toList)
  · rw [← log, layout.intents_eq]
    change (live.take m.log.length).map Prod.snd = live.map Prod.snd
    rw [layout.length_eq, List.take_length]
  · rw [← bindings]
    exact m.bindings.take_size
  · rw [← bindings]
    exact held.settled

theorem renewChoice_top {point : ChoicePoint} (top : index + 1 = m.frames.size)
    (caught : m.catchIndex = some index) (found : m.frames[index]? = some (.choice point)) :
    m.renewChoice index point = (m.cut index point).pushChoice point.failure := by
  have within : index < m.frames.size := (Array.getElem?_eq_some_iff.mp found).1
  have size : (m.frames.shrink index).size = index := by
    rw [← Array.length_toList, Array.toList_shrink, List.length_take, Array.length_toList]
    omega
  have frames (frame : Frame) :
      m.frames.setIfInBounds index frame = (m.frames.shrink index).push frame := by
    apply Array.toList_inj.mp
    rw [Array.toList_setIfInBounds, Array.toList_push, Array.toList_shrink,
      List.set_eq_take_append_cons_drop, if_pos (by rw [Array.length_toList]; exact within),
      List.drop_of_length_le (by rw [Array.length_toList]; exact Nat.le_of_eq top.symm)]
  simp only [renewChoice, Machine.pushChoice, Machine.cut, frames, size, caught]

/-! ### Every step keeps it -/

variable {task : Task σ τ}

theorem Held.check {now : Config σ τ} (held : Held task.program past now.machine live)
    (disciplined : Disciplined task.program now) {op : ControlOp InstId} {next : InstId}
    (checks : op = .guard ∨ op = .step)
    (found : task.program.inst? now.place = some ⟨.control op, next⟩) (site : Site) :
    ∃ live', Held task.program (now :: past)
      (reached (settle now.place (now.machine.recheck site next))) live' := by
  cases innermost : now.machine.innermost site with
  | error fault =>
      refine ⟨live, ?_⟩
      simp only [recheck, innermost]
      refine held.later fun index point choice sets => ?_
      obtain ⟨caught, point', choice', _⟩ := sets_check checks found sets
      rw [innermost_eq caught choice'] at innermost
      cases innermost
  | ok answer =>
      obtain ⟨index, point⟩ := answer
      obtain ⟨caught, choice⟩ := innermost_ok innermost
      by_cases idle : point.pos = now.machine.pos
      · simp only [recheck, innermost, idle, if_true]
        have held' : Held task.program (now :: past) now.machine live := by
          refine held.later fun other point' _ sets => ?_
          obtain ⟨caught', point'', choice', moved⟩ := sets_check checks found sets
          rw [caught, Option.some.injEq] at caught'
          subst caught'
          rw [choice] at choice'
          cases choice'
          exact moved idle
        exact held'.fail now.place
      · refine ⟨live, ?_⟩
        simp only [recheck, innermost, idle, if_false]
        change Held task.program (now :: past) (now.machine.renewChoice index point) live
        have top := disciplined.top checks found caught
        have size : (now.machine.cut index point).frames.size = index := by
          unfold Machine.cut
          rw [← Array.length_toList, Array.toList_shrink, List.length_take, Array.length_toList]
          omega
        rw [renewChoice_top top caught choice]
        have cut : Held task.program past (now.machine.cut index point) live :=
          held.lower (held.chained.cut choice) Array.toList_shrink rfl rfl
        have cut' : Held task.program (now :: past) (now.machine.cut index point) live := by
          refine cut.later fun other point' below sets => ?_
          obtain ⟨caught', _⟩ := sets_check checks found sets
          rw [caught, Option.some.injEq] at caught'
          have within := (List.getElem?_eq_some_iff.mp below).1
          rw [Array.length_toList, size] at within
          omega
        refine cut'.push_choice ?_ rfl ?_ rfl rfl point.failure
        · rw [size]
          exact .renew checks found caught choice idle
        · rw [size]
          exact Array.toList_shrink

theorem Held.step {now : Config σ τ} (held : Held task.program past now.machine live)
    (disciplined : Disciplined task.program now) :
    ∃ live', Held task.program (now :: past) (reached (now.machine.step task now.place)) live' := by
  cases found : task.program.inst? now.place with
  | none =>
      refine ⟨live, ?_⟩
      simp only [Machine.step, found]
      refine held.later fun index point _ sets => ?_
      cases sets with
      | alt found' => rw [found] at found'; cases found'
      | renew _ found' => rw [found] at found'; cases found'
  | some inst =>
      rw [step_eq found]
      cases sets : inst.op.setsChoice with
      | false =>
          obtain ⟨live', after⟩ := held.edits (exec_edits task now.place inst now.machine sets)
          have after' := after.later fun index point _ => not_sets found sets
          cases effect : now.machine.exec task now.place inst with
          | goto target m' => rw [effect] at after'; exact ⟨live', after'⟩
          | halt reason m' => rw [effect] at after'; exact ⟨live', after'⟩
          | fail m' => rw [effect] at after'; exact after'.fail now.place
      | true =>
          obtain ⟨op, next⟩ := inst
          cases op with
          | control op =>
              cases op with
              | alt failure =>
                  have held' : Held task.program (now :: past) now.machine live := by
                    refine held.later fun index point below sets => ?_
                    have within := (List.getElem?_eq_some_iff.mp below).1
                    rw [Array.length_toList, sets_alt found sets] at within
                    exact Nat.lt_irrefl _ within
                  refine ⟨live, held'.push_choice (.alt found) rfl ?_ rfl rfl failure⟩
                  exact (List.take_of_length_le (Nat.le_of_eq Array.length_toList)).symm
              | guard => exact held.check disciplined (.inl rfl) found _
              | step => exact held.check disciplined (.inr rfl) found _
              | nop | exit | pos | back | move | jump | call | ret | succ | fail => cases sets
          | test | dispatch | tree | bindings | count | memo => cases sets

theorem Execution.held {options : Options} {now : Config σ τ}
    (execution : Execution task options past now)
    (disciplined : ∀ config ∈ past, Disciplined task.program config) :
    ∃ live, Held task.program past now.machine live := by
  refine execution.keeps (fun past m => (∀ config ∈ past, Disciplined task.program config) →
    ∃ live, Held task.program past m live) ?_ ?_ ?_ disciplined
  · intro nodes _
    have fresh : Held task.program [] (initial task.program options nodes : Machine σ τ) [] :=
      ⟨Packrat.Chained.nil, ⟨[], TreeLog.layout_new options.tree⟩, Bindings.settled_empty,
        (fun mark member => by cases member), ⟨.nil, fun mark member => by cases member⟩,
        ⟨.nil, fun mark member => by cases member⟩, fun index point found => by cases found⟩
    exact fresh.edit (.push (.ret .exitOk) rfl)
  · intro past now _ ih disciplined
    obtain ⟨live, held⟩ := ih fun config member =>
      disciplined config (List.mem_cons_of_mem now member)
    exact held.step (disciplined now List.mem_cons_self)
  · intro past m reason ih disciplined
    obtain ⟨live, held⟩ := ih disciplined
    have left : Edit m (m.leave reason) :=
      .keep (by cases reason <;> exact ⟨⟨rfl, rfl⟩, rfl, rfl⟩)
    exact held.edits ((Edits.one left).tail (.push (.ret .exitOk) rfl))

/-! ### Isolation -/

/-- Backtracking is isolated. When an instruction fails under a choice point, the step leads to the
failure target of the choice point, in the situation of the moment when the choice point was last
set: its cursor, the frames below it, the choice point outside it, the live intents, the bindings
and their state. The mark that the log is taken back to is live, as is every mark that a node is
built from, and the one that the tree of the whole run is built from. -/
theorem backtracking_isolated {options : Options} {now : Config σ τ}
    (execution : Execution task options past now)
    (disciplined : ∀ config ∈ past, Disciplined task.program config)
    (found : task.program.inst? now.place = some inst) :
    (∀ m₁ index, now.machine.exec task now.place inst = .fail m₁ → m₁.catchIndex = some index →
      ∃ point origin m', m₁.frames[index]? = some (.choice point) ∧
        Origin task.program past index origin ∧
        now.machine.step task now.place = .goto point.failure m' ∧
        m'.situation = origin.machine.situationBelow index ∧ m₁.log.Live point.tree) ∧
    (∀ label mark m₁, inst.op = .tree (.emit label) →
      now.machine.popAs Frame.tree? .tree ⟨now.place, inst.op⟩ = .ok (mark, m₁) →
      m₁.log.Live mark) ∧
    now.machine.log.Live TreeLog.startMark := by
  obtain ⟨live, held⟩ := execution.held disciplined
  obtain ⟨free, layout⟩ := held.layout
  refine ⟨fun m₁ index failed caught => ?_, fun label mark m₁ _ popped => ?_,
    layout.live_of_marks (TreeLog.Layout.startMark_live live)⟩
  · have failing : ∃ live', Held task.program past m₁ live' := by
      cases sets : inst.op.setsChoice with
      | false =>
          have after := held.edits (exec_edits task now.place inst now.machine sets)
          rw [failed] at after
          exact after
      | true => exact ⟨live, by rw [fail_of_sets sets failed]; exact held⟩
    obtain ⟨live', held'⟩ := failing
    obtain ⟨point, choice⟩ := held'.chained.found caught
    have step : now.machine.step task now.place = .goto point.failure (m₁.resume index point) := by
      rw [step_eq found, failed]
      simp only [settle, Machine.fail, caught, innermost_eq caught choice]
    have choice' : m₁.frames.toList[index]? = some (.choice point) := by
      rw [Array.getElem?_toList]
      exact choice
    obtain ⟨origin, set, kept⟩ := held'.origins index point choice'
    have member : point.tree ∈ m₁.frames.toList.filterMap Frame.treeMark? :=
      List.mem_filterMap.mpr ⟨_, List.mem_of_getElem? choice', rfl⟩
    obtain ⟨free', layout'⟩ := held'.layout
    exact ⟨point, origin, m₁.resume index point, choice, set, step,
      held'.situation_resume choice' kept, layout'.live_of_marks (held'.marks _ member)⟩
  · rcases popAs_cases Frame.tree? .tree now.machine ⟨now.place, inst.op⟩ with
      ⟨frame, content, pops, reads, same⟩ | ⟨frame, fault, pops, same⟩ | ⟨fault, same⟩
    · rw [popped] at same
      cases same
      have read : frame.treeMark? = some mark := by
        cases frame with
        | tree saved => exact reads
        | choice | ret | position | bindings | count => cases reads
      exact layout.live_of_marks
        (held.marks mark (List.mem_filterMap.mpr ⟨_, List.mem_of_getElem? pops.found, read⟩))
    · rw [popped] at same
      cases same
    · rw [popped] at same
      cases same

/-- Code that logs a tag and matches the byte `a`, as often as it can. -/
def repeatTags : Program where
  insts := #[⟨.control (.exit false), .exitFail⟩, ⟨.control (.exit true), .exitOk⟩,
    ⟨.control (.alt .exitOk), ⟨3⟩⟩, ⟨.tree (.tag ⟨1⟩), ⟨4⟩⟩, ⟨.test (.byte 0x61) .once, ⟨5⟩⟩,
    ⟨.control .step, ⟨3⟩⟩]
  sets := .empty
  literals := .empty
  dispatch := #[]
  memoPoints := #[]
  symbols := .initial
  start := ⟨2⟩

def tagsFirst : Machine Unit Tree :=
  ((initial repeatTags .initial ()).push (.ret .exitOk)).pushChoice .exitOk

def tagged (m : Machine Unit Tree) : Machine Unit Tree :=
  m.logged fun log => log.append (.tag ⟨1⟩)

def tagsSecond : Machine Unit Tree :=
  ((tagged tagsFirst).advance 1).renewChoice 1 ⟨.exitOk, 0, TreeLog.startMark, ⟨0⟩, none⟩

def tagsPast : List (Config Unit Tree) :=
  [⟨⟨3⟩, tagsSecond⟩, ⟨⟨5⟩, (tagged tagsFirst).advance 1⟩, ⟨⟨4⟩, tagged tagsFirst⟩,
    ⟨⟨3⟩, tagsFirst⟩, ⟨⟨2⟩, (initial repeatTags .initial ()).push (.ret .exitOk)⟩]

theorem tagsPast_execution :
    Execution ⟨repeatTags, .ofBytes #[0x61], Tree.factory⟩ .initial tagsPast
      ⟨⟨4⟩, tagged tagsSecond⟩ := by
  let task : Task Unit Tree := ⟨repeatTags, .ofBytes #[0x61], Tree.factory⟩
  have pushed : Execution task .initial _ ⟨⟨3⟩, tagsFirst⟩ := .step (.enter ⟨2⟩ ()) rfl
  have begun : Execution task .initial _ ⟨⟨4⟩, tagged tagsFirst⟩ := .step pushed rfl
  have matched : Execution task .initial _ ⟨⟨5⟩, (tagged tagsFirst).advance 1⟩ := .step begun rfl
  have renewed : Execution task .initial _ ⟨⟨3⟩, tagsSecond⟩ := .step matched rfl
  exact .step renewed rfl

theorem tagsPast_disciplined : ∀ config ∈ tagsPast, Disciplined repeatTags config := by
  unfold tagsPast
  simp only [List.forall_mem_cons]
  exact ⟨trivial, rfl, trivial, trivial, trivial, fun config member => by cases member⟩

/-- The second iteration fails, and the tag that it logged is given up. -/
theorem backtracking_isolated_repetition :
    let task : Task Unit Tree := ⟨repeatTags, .ofBytes #[0x61], Tree.factory⟩
    ∃ past now origin m', Execution task .initial past now ∧ past.length = 5 ∧
      Origin repeatTags past 1 origin ∧
      now.machine.step task now.place = .goto .exitOk m' ∧
      m'.situation = origin.machine.situationBelow 1 := by
  intro task
  have execution : Execution task .initial tagsPast ⟨⟨4⟩, tagged tagsSecond⟩ := tagsPast_execution
  obtain ⟨point, origin, m', choice, set, step, same, _⟩ :=
    (backtracking_isolated execution tagsPast_disciplined rfl).1 (tagged tagsSecond) 1 rfl rfl
  cases choice
  exact ⟨_, _, origin, m', execution, rfl, set, step, same⟩

end Machine

end Packrat
