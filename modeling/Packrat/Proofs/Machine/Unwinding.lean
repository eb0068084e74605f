/-
Single instructions of a run, and what a failure leads to. Code is read modulo jumps: what counts at
a place is the instruction that control meets there when it has followed them.
-/

import Packrat.Proofs.Machine.ChoiceChain
import Packrat.Proofs.Machine.Course

namespace Packrat

/-! ### Meeting an instruction -/

inductive Leads (program : Program) : InstId → InstId → Prop
  | here (place : InstId) : Leads program place place
  | jump {place target stop next : InstId}
      (found : program.inst? place = some ⟨.control (.jump target), next⟩)
      (rest : Leads program target stop) : Leads program place stop

def Meets (program : Program) (place : InstId) (op : Op InstId) (k : InstId) : Prop :=
  ∃ stop next, Leads program place stop ∧ program.inst? stop = some ⟨op, next⟩ ∧
    Leads program next k

/-! ### Stacks -/

theorem shrink_push (frames : Array Frame) (frame : Frame) :
    (frames.push frame).shrink frames.size = frames := by
  apply Array.toList_inj.mp
  rw [Array.toList_shrink, Array.toList_push, ← Array.length_toList, List.take_left]

theorem set_push (frames : Array Frame) (frame other : Frame) :
    (frames.push frame).setIfInBounds frames.size other = frames.push other := by
  apply Array.toList_inj.mp
  rw [Array.toList_setIfInBounds, Array.toList_push, Array.toList_push, ← Array.length_toList,
    List.set_append_right _ _ (Nat.le_refl _), Nat.sub_self, List.set_cons_zero]

namespace Machine

variable {σ τ : Type} {task : Task σ τ} {place target k : InstId} {op : Op InstId}
  {m m' : Machine σ τ}

theorem course_of_leads (leads : Leads task.program place target) (m : Machine σ τ) :
    Course task place m [] target m := by
  induction leads with
  | here => exact .refl _ m
  | @jump place target stop next found _ ih =>
      have jumped : m.step task place = .goto target m := by
        rw [step_eq found]
        rfl
      have silent : miss? task.program place m = none := by
        unfold miss?
        rw [found]
        rfl
      have course := Course.head jumped ih
      rw [silent] at course
      exact course

theorem course_target (meets : Meets task.program place op k)
    (goes : ∀ place next, m.exec task place ⟨op, next⟩ = .goto target m') :
    Course task place m (missOf task.program op m).toList target m' := by
  obtain ⟨stop, next, leads, found, _⟩ := meets
  have stepped : m.step task stop = .goto target m' := by
    rw [step_eq found, goes]
    rfl
  have course := (course_of_leads leads m).trans (.head stepped (.refl target m'))
  rw [miss?, found, List.append_nil] at course
  exact course

theorem course_next (meets : Meets task.program place op k)
    (goes : ∀ place next, m.exec task place ⟨op, next⟩ = .goto next m') :
    Course task place m (missOf task.program op m).toList k m' := by
  obtain ⟨stop, next, leads, found, continues⟩ := meets
  have stepped : m.step task stop = .goto next m' := by
    rw [step_eq found, goes]
    rfl
  have course := (course_of_leads leads m).trans (.head stepped (course_of_leads continues m'))
  rw [miss?, found, List.append_nil] at course
  exact course

theorem reaches_of_leads (leads : Leads task.program place target) (m : Machine σ τ) :
    Reaches task place m target m :=
  (course_of_leads leads m).reaches

theorem reaches_next (meets : Meets task.program place op k)
    (goes : ∀ place next, m.exec task place ⟨op, next⟩ = .goto next m') :
    Reaches task place m k m' :=
  (course_next meets goes).reaches

theorem reaches_target (meets : Meets task.program place op k)
    (goes : ∀ place next, m.exec task place ⟨op, next⟩ = .goto target m') :
    Reaches task place m target m' :=
  (course_target meets goes).reaches

/-! ### Failing -/

/-- How a failure in a state leads on: at the failure target of the innermost choice point, in the
state that it saved, or without a choice point at the exit of the runs that do not match. -/
def Unwinds (m : Machine σ τ) (target : InstId) (m' : Machine σ τ) : Prop :=
  match m.catchIndex with
  | none =>
    target = .exitFail ∧ m'.catchIndex = none ∧ m'.log = m.log ∧ m'.bindings = m.bindings
  | some index =>
    ∃ point, m.frames[index]? = some (.choice point) ∧ target = point.failure ∧
      m'.pos = point.pos ∧ m'.frames = m.frames.shrink index ∧ m'.catchIndex = point.outer ∧
      m'.log = m.log.abort point.tree ∧ m'.bindings = m.bindings.restore point.bindings

/-- The position that a failure takes the cursor back to, zero where no choice point is left. -/
def landing (m : Machine σ τ) : Nat :=
  match m.catchIndex with
  | none => 0
  | some index => ((m.frames[index]?.bind Frame.choice?).map ChoicePoint.pos).getD 0

theorem landing_eq {index : Nat} {point : ChoicePoint} (caught : m.catchIndex = some index)
    (found : m.frames[index]? = some (.choice point)) : m.landing = point.pos := by
  simp only [landing, caught, found, Option.bind_some, Frame.choice?, Option.map_some,
    Option.getD_some]

theorem fail_unwinds (chained : m.Chained) :
    ∃ target m', (∀ place, m.fail place = .goto target m') ∧ Unwinds m target m' ∧
      m'.maxPosition = max m.landing m.maxPosition ∧ m'.memo = m.memo := by
  cases caught : m.catchIndex with
  | none =>
      let failed : Machine σ τ := { m with stats := m.stats.backtrack m.pos m.pos m.head }
      refine ⟨.exitFail, failed, fun place => ?_, ?_, ?_, rfl⟩
      · simp only [Machine.fail, caught, failed]
      · unfold Unwinds
        rw [caught]
        exact ⟨rfl, rfl, rfl, rfl⟩
      · change m.maxPosition = max m.landing m.maxPosition
        unfold landing
        rw [caught]
        exact (Nat.zero_max _).symm
  | some index =>
      obtain ⟨point, found⟩ := chained.found caught
      refine ⟨point.failure, m.resume index point, fun place => ?_, ?_, ?_, rfl⟩
      · simp only [Machine.fail, caught, innermost_eq caught found]
      · unfold Unwinds
        rw [caught]
        exact ⟨point, found, rfl, rfl, rfl, rfl, rfl, rfl⟩
      · rw [landing_eq caught found]
        exact Nat.max_comm m.maxPosition point.pos

theorem course_of_fail (meets : Meets task.program place op k) {failing : Machine σ τ}
    (fails : ∀ place next, m.exec task place ⟨op, next⟩ = .fail failing)
    (chained : failing.Chained) :
    ∃ target m', Course task place m (missOf task.program op m).toList target m' ∧
      Unwinds failing target m' ∧
      m'.maxPosition = max failing.landing failing.maxPosition ∧ m'.memo = failing.memo := by
  obtain ⟨target, m', goes, unwinds, furthest, memo⟩ := fail_unwinds chained
  obtain ⟨stop, next, leads, found, _⟩ := meets
  have stepped : m.step task stop = .goto target m' := by
    rw [step_eq found, fails, settle, goes]
  have course := (course_of_leads leads m).trans (.head stepped (.refl target m'))
  rw [miss?, found, List.append_nil] at course
  exact ⟨target, m', course, unwinds, furthest, memo⟩

theorem reaches_of_fail (meets : Meets task.program place op k) {failing : Machine σ τ}
    (fails : ∀ place next, m.exec task place ⟨op, next⟩ = .fail failing)
    (chained : failing.Chained) :
    ∃ target m', Reaches task place m target m' ∧ Unwinds failing target m' ∧
      m'.maxPosition = max failing.landing failing.maxPosition ∧ m'.memo = failing.memo := by
  obtain ⟨target, m', course, rest⟩ := course_of_fail meets fails chained
  exact ⟨target, m', course.reaches, rest⟩

theorem SameStack.landing (same : SameStack m m') : m'.landing = m.landing := by
  unfold Machine.landing
  rw [same.frames, same.catchIndex]

theorem landing_push (chained : m.Chained) (frame : Frame) :
    (m.push frame).landing = m.landing := by
  cases caught : m.catchIndex with
  | none => simp only [Machine.landing, Machine.push, caught]
  | some index =>
      obtain ⟨point, found⟩ := chained.found caught
      have within : index < m.frames.size := (Array.getElem?_eq_some_iff.mp found).1
      have found' : (m.push frame).frames[index]? = some (.choice point) := by
        rw [← found]
        exact Array.getElem?_push_lt within |>.trans (Array.getElem?_eq_getElem within).symm
      rw [landing_eq (m := m.push frame) caught found', landing_eq caught found]

theorem landing_pushChoice (m : Machine σ τ) (failure : InstId) :
    (m.pushChoice failure).landing = m.pos := by
  have caught : (m.pushChoice failure).catchIndex = some m.frames.size := rfl
  exact landing_eq caught Array.getElem?_push_size

namespace Unwinds

/-- What a failure leads to depends on the stack, the log and the bindings only. -/
theorem congr {m₁ : Machine σ τ} (same : SameUndo m m₁) (unwinds : Unwinds m₁ target m') :
    Unwinds m target m' := by
  unfold Unwinds at unwinds ⊢
  rw [same.frames, same.catchIndex, same.log, same.bindings] at unwinds
  exact unwinds

/-- Frames above the innermost choice point are given up. -/
theorem below {frame : Frame} (chained : m.Chained)
    (unwinds : Unwinds (m.push frame) target m') : Unwinds m target m' := by
  unfold Unwinds at unwinds ⊢
  cases caught : m.catchIndex with
  | none =>
      simp only [Machine.push, caught] at unwinds
      exact unwinds
  | some index =>
      obtain ⟨point, found⟩ := chained.found caught
      have within : index < m.frames.size := (Array.getElem?_eq_some_iff.mp found).1
      simp only [Machine.push, caught] at unwinds
      obtain ⟨point', found', rest⟩ := unwinds
      rw [Array.getElem?_push_lt within, ← Array.getElem?_eq_getElem within] at found'
      refine ⟨point', found', ?_⟩
      have cut : (m.frames.push frame).shrink index = m.frames.shrink index := by
        apply Array.toList_inj.mp
        rw [Array.toList_shrink, Array.toList_shrink, Array.toList_push,
          List.take_append_of_le_length (Nat.le_of_lt within)]
      rw [cut] at rest
      exact rest

/-- A failure under a choice point comes back to the state that pushed it. -/
theorem fresh {failure : InstId} {failing : Machine σ τ}
    (under : SameStack (m.pushChoice failure) failing) (unwinds : Unwinds failing target m') :
    target = failure ∧ m'.pos = m.pos ∧ SameStack m m' ∧
      m'.log = failing.log.abort m.log.mark ∧
      m'.bindings = failing.bindings.restore m.bindings.save := by
  unfold Unwinds at unwinds
  rw [under.catchIndex, under.frames] at unwinds
  obtain ⟨point, found, targetEq, posEq, framesEq, catchEq, logEq, bindingsEq⟩ := unwinds
  unfold Machine.pushChoice at found framesEq
  rw [Array.getElem?_push_size, Option.some.injEq, Frame.choice.injEq] at found
  subst found
  refine ⟨targetEq, posEq, ⟨?_, catchEq⟩, logEq, bindingsEq⟩
  rw [framesEq]
  exact shrink_push m.frames _

end Unwinds

/-! ### The stack of the templates -/

def withStack (m base : Machine σ τ) : Machine σ τ :=
  { m with frames := base.frames, catchIndex := base.catchIndex }

theorem course_alt {failure : InstId} (meets : Meets task.program place (.control (.alt failure)) k)
    (m : Machine σ τ) : Course task place m [] k (m.pushChoice failure) :=
  course_next meets fun _ _ => rfl

theorem reaches_alt {failure : InstId} (meets : Meets task.program place (.control (.alt failure)) k)
    (m : Machine σ τ) : Reaches task place m k (m.pushChoice failure) :=
  (course_alt meets m).reaches

/-- The choice point that a state pushed is the innermost one until the stack changes. -/
theorem innermost_pushed {failure : InstId} {m₁ : Machine σ τ}
    (under : SameStack (m.pushChoice failure) m₁) :
    ∃ point, m₁.catchIndex = some m.frames.size ∧
      m₁.frames = m.frames.push (.choice point) ∧ (∀ site, m₁.innermost site =
        .ok (m.frames.size, point)) ∧ point.pos = m.pos ∧ point.outer = m.catchIndex ∧
      point.failure = failure ∧ point.bindings = m.bindings.save := by
  let point : ChoicePoint := ⟨failure, m.pos, m.log.mark, m.bindings.save, m.catchIndex⟩
  have found : m₁.frames[m.frames.size]? = some (.choice point) := by
    rw [under.frames]
    exact Array.getElem?_push_size
  exact ⟨point, under.catchIndex, under.frames, innermost_eq under.catchIndex found, rfl, rfl, rfl,
    rfl⟩

theorem cut_pushed {m₁ : Machine σ τ} {point : ChoicePoint}
    (frames : m₁.frames = m.frames.push (.choice point)) (outer : point.outer = m.catchIndex) :
    m₁.cut m.frames.size point = m₁.withStack m := by
  unfold cut withStack
  rw [frames, shrink_push, outer]

theorem course_succ {failure : InstId} {m₁ : Machine σ τ}
    (meets : Meets task.program place (.control .succ) k)
    (under : SameStack (m.pushChoice failure) m₁) :
    Course task place m₁ [] k (m₁.withStack m) := by
  obtain ⟨point, _, frames, innermost, _, outer, _⟩ := innermost_pushed under
  refine course_next meets fun place next => ?_
  simp only [exec, control, innermost, cut_pushed frames outer]

theorem reaches_succ {failure : InstId} {m₁ : Machine σ τ}
    (meets : Meets task.program place (.control .succ) k)
    (under : SameStack (m.pushChoice failure) m₁) :
    Reaches task place m₁ k (m₁.withStack m) :=
  (course_succ meets under).reaches

/-- Repeating the body of a repetition, which pushes its choice point anew. -/
theorem course_step {failure : InstId} {m₁ : Machine σ τ}
    (meets : Meets task.program place (.control .step) k)
    (under : SameStack (m.pushChoice failure) m₁) (moved : m₁.pos ≠ m.pos) :
    Course task place m₁ [] k ((m₁.withStack m).pushChoice failure) := by
  obtain ⟨point, caught, frames, innermost, posEq, outer, failureEq, _⟩ := innermost_pushed under
  have stays : point.pos ≠ m₁.pos := by
    rw [posEq]
    exact moved.symm
  have renewed : m₁.renewChoice m.frames.size point = (m₁.withStack m).pushChoice failure := by
    obtain ⟨saved, savedPos, mark, bindingMark, link⟩ := point
    subst failureEq outer
    simp only [renewChoice, Machine.pushChoice, withStack, frames, caught, set_push]
  refine course_next meets fun place next => ?_
  simp only [exec, control, recheck, innermost, stays, if_false, renewed]

theorem reaches_step {failure : InstId} {m₁ : Machine σ τ}
    (meets : Meets task.program place (.control .step) k)
    (under : SameStack (m.pushChoice failure) m₁) (moved : m₁.pos ≠ m.pos) :
    Reaches task place m₁ k ((m₁.withStack m).pushChoice failure) :=
  (course_step meets under moved).reaches

theorem step_fails {failure : InstId} {m₁ : Machine σ τ}
    (under : SameStack (m.pushChoice failure) m₁) (idle : m₁.pos = m.pos) (place next : InstId) :
    m₁.exec task place ⟨.control .step, next⟩ = .fail m₁ := by
  obtain ⟨point, _, _, innermost, posEq, _⟩ := innermost_pushed under
  have stays : point.pos = m₁.pos := by rw [posEq, idle]
  simp only [exec, control, recheck, innermost, stays, if_true]

theorem popAs_pushed {α : Type} {read : Frame → Option α} {frame : Frame} {content : α}
    {m₁ : Machine σ τ} (chained : m.Chained) (under : SameStack (m.push frame) m₁)
    (reads : read frame = some content) (expected : FrameKind) (site : Site) :
    m₁.popAs read expected site = .ok (content, m₁.withStack m) := by
  have frames : m₁.frames = m.frames.push frame := under.frames
  have caught : m₁.catchIndex = m.catchIndex := under.catchIndex
  have free : m₁.catchIndex ≠ some (m₁.frames.size - 1) := by
    intro top
    rw [caught, frames, Array.size_push, Nat.add_sub_cancel] at top
    obtain ⟨point, found⟩ := chained.found top
    rw [Array.getElem?_eq_none (Nat.le_refl _)] at found
    cases found
  have top : m₁.top site expected = .ok frame := by
    unfold Machine.top
    rw [if_neg free, frames, Array.back?_push]
  have dropped : m₁.drop = m₁.withStack m := by
    unfold Machine.drop withStack
    rw [frames, Array.pop_push, caught]
  simp only [popAs, top, reads, dropped]

theorem course_ret {m₁ : Machine σ τ} {back : InstId} (chained : m.Chained)
    (meets : Meets task.program place (.control .ret) k)
    (under : SameStack (m.push (.ret back)) m₁) :
    Course task place m₁ [] back (m₁.withStack m) := by
  refine course_target meets fun place next => ?_
  have reads : Frame.ret? (.ret back) = some back := rfl
  have popped := popAs_pushed chained under reads .ret
  simp only [exec, control, popped]

theorem reaches_ret {m₁ : Machine σ τ} {back : InstId} (chained : m.Chained)
    (meets : Meets task.program place (.control .ret) k)
    (under : SameStack (m.push (.ret back)) m₁) :
    Reaches task place m₁ back (m₁.withStack m) :=
  (course_ret chained meets under).reaches

theorem course_back {m₁ : Machine σ τ} {pos : Nat} (chained : m.Chained)
    (meets : Meets task.program place (.control .back) k)
    (under : SameStack (m.push (.position pos)) m₁) :
    Course task place m₁ [] k ((m₁.withStack m).rollback pos) := by
  refine course_next meets fun place next => ?_
  have reads : Frame.position? (.position pos) = some pos := rfl
  have popped := popAs_pushed chained under reads .position
  simp only [exec, control, popPosition, popped]

end Machine

end Packrat
