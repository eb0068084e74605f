/-
Where the frames on the stack come from. A frame of a kind stands where the operation that pushes that
kind last found the top of the stack, and a choice point still stands on the frames that were there when
it was pushed, though it may have been renewed since. Nothing is asked of the run for this.
-/

import Packrat.Proofs.Machine.Backtracking

namespace Packrat

def Op.pushesChoice {t : Type} : Op t → Bool
  | .control (.alt _) => true
  | _ => false

theorem getElem?_concat_cases {α : Type} {items : List α} {last item : α} {index : Nat}
    (found : (items ++ [last])[index]? = some item) :
    items[index]? = some item ∨ (index = items.length ∧ item = last) := by
  have within := (List.getElem?_eq_some_iff.mp found).1
  rw [List.length_append, List.length_singleton] at within
  rcases Nat.lt_succ_iff_lt_or_eq.mp within with below | top
  · rw [List.getElem?_append_left below] at found
    exact .inl found
  · rw [top, List.getElem?_concat_length, Option.some.injEq] at found
    exact .inr ⟨top, found.symm⟩

/-- No choice point lies above the topmost one. -/
theorem lastChoice_le {frames : List Frame} {last index : Nat} {point : ChoicePoint}
    (topmost : lastChoice frames = some last) (found : frames[index]? = some (.choice point)) :
    index ≤ last := by
  induction frames using List.reverseRecOn with
  | nil => cases found
  | append_singleton frames frame ih =>
      rw [lastChoice_concat] at topmost
      cases plain : frame.choice? with
      | some other =>
          have within := (List.getElem?_eq_some_iff.mp found).1
          rw [List.length_append, List.length_singleton] at within
          rw [plain, Option.isSome_some, if_pos rfl, Option.some.injEq] at topmost
          omega
      | none =>
          rw [plain, Option.isSome_none, if_neg Bool.false_ne_true] at topmost
          rcases getElem?_concat_cases found with below | ⟨_, top⟩
          · exact ih topmost below
          · rw [← top] at plain
            cases plain

namespace Machine

variable {σ τ : Type} {task : Task σ τ} {program : Program} {past : List (Config σ τ)}
  {now origin : Config σ τ} {m m' : Machine σ τ} {op : Op InstId} {inst : Inst InstId}

/-! ### Pushing -/

structure Pushes (program : Program) (kind : Op InstId → Bool) (now : Config σ τ) (index : Nat) :
    Prop where
  top : index = now.machine.frames.size
  kind : ∃ inst, program.inst? now.place = some inst ∧ kind inst.op = true

def PushedBy (program : Program) (kind : Op InstId → Bool) (past : List (Config σ τ)) (index : Nat)
    (origin : Config σ τ) : Prop :=
  ∃ later earlier, past = later ++ origin :: earlier ∧ Pushes program kind origin index ∧
    ∀ other ∈ later, ¬ Pushes program kind other index

theorem PushedBy.keep {kind : Op InstId → Bool} {index : Nat}
    (pushed : PushedBy program kind past index origin) (other : ¬ Pushes program kind now index) :
    PushedBy program kind (now :: past) index origin := by
  obtain ⟨later, earlier, split, pushes, last⟩ := pushed
  refine ⟨now :: later, earlier, by rw [split]; rfl, pushes, fun between member => ?_⟩
  rcases List.mem_cons.mp member with rfl | member
  · exact other
  · exact last between member

/-! ### Rooted frames -/

section Rooted

variable {α : Type} {kind : Op InstId → Bool} {read : Frame → Option α}
  {saved saved' : Nat → α → Machine σ τ → Prop} {frames frames' : List Frame}

/-- Every frame with a content was pushed by an operation of a kind, in a state that fits what it saved. -/
def Rooted (program : Program) (kind : Op InstId → Bool) (read : Frame → Option α)
    (saved : Nat → α → Machine σ τ → Prop) (past : List (Config σ τ)) (frames : List Frame) : Prop :=
  ∀ index frame content, frames[index]? = some frame → read frame = some content →
    ∃ origin, PushedBy program kind past index origin ∧ saved index content origin.machine

/-- The frames that the next instruction finds lie below the place where it can push. -/
theorem Rooted.later (rooted : Rooted program kind read saved past now.machine.frames.toList) :
    Rooted program kind read saved (now :: past) now.machine.frames.toList := by
  intro index frame content found reads
  obtain ⟨origin, pushed, same⟩ := rooted index frame content found reads
  have within := (List.getElem?_eq_some_iff.mp found).1
  rw [Array.length_toList] at within
  exact ⟨origin, pushed.keep fun pushes => absurd pushes.top (Nat.ne_of_lt within), same⟩

theorem Rooted.mono (rooted : Rooted program kind read saved past frames)
    (stays : ∀ index frame' content', frames'[index]? = some frame' → read frame' = some content' →
      ∃ frame content, frames[index]? = some frame ∧ read frame = some content ∧
        ∀ origin, saved index content origin → saved' index content' origin) :
    Rooted program kind read saved' past frames' := by
  intro index frame' content' found' reads'
  obtain ⟨frame, content, found, reads, fits⟩ := stays index frame' content' found' reads'
  obtain ⟨origin, pushed, same⟩ := rooted index frame content found reads
  exact ⟨origin, pushed, fits _ same⟩

/-- A frame without a content is pushed. -/
theorem Rooted.concat (rooted : Rooted program kind read saved past frames) {frame : Frame}
    (other : read frame = none) : Rooted program kind read saved past (frames ++ [frame]) := by
  intro index frame' content found reads
  rcases getElem?_concat_cases found with below | ⟨_, top⟩
  · exact rooted index frame' content below reads
  · rw [top, other] at reads
    cases reads

/-- The next instruction pushes a frame that fits the state that it finds. -/
theorem Rooted.push (rooted : Rooted program kind read saved past now.machine.frames.toList)
    (found : program.inst? now.place = some inst) (pushes : kind inst.op = true) {frame : Frame}
    (fits : ∀ content, read frame = some content →
      saved' now.machine.frames.size content now.machine)
    (stays : ∀ index content origin, index < now.machine.frames.size →
      saved index content origin → saved' index content origin) :
    Rooted program kind read saved' (now :: past) (now.machine.frames.toList ++ [frame]) := by
  intro index frame' content held reads
  rcases getElem?_concat_cases held with below | ⟨top, rfl⟩
  · obtain ⟨origin, pushed, same⟩ := rooted.later index frame' content below reads
    have within := (List.getElem?_eq_some_iff.mp below).1
    rw [Array.length_toList] at within
    exact ⟨origin, pushed, stays index content origin.machine within same⟩
  · rw [Array.length_toList] at top
    subst top
    refine ⟨now, ⟨[], past, rfl, ⟨rfl, inst, found, pushes⟩, ?_⟩, fits content reads⟩
    intro other member
    cases member

end Rooted

/-! ### Choice points -/

/-- Every choice point stands where a choice point stood before, on the same frames. -/
def Stands (m m' : Machine σ τ) : Prop :=
  ∀ index point', m'.frames.toList[index]? = some (.choice point') →
    (∃ point, m.frames.toList[index]? = some (.choice point)) ∧
      m'.frames.toList.take index = m.frames.toList.take index

namespace Stands

theorem refl (m : Machine σ τ) : Stands m m := fun _ point found => ⟨⟨point, found⟩, rfl⟩

theorem trans {m₁ m₂ m₃ : Machine σ τ} (first : Stands m₁ m₂) (second : Stands m₂ m₃) :
    Stands m₁ m₃ := by
  intro index point found
  obtain ⟨⟨point', found'⟩, same'⟩ := second index point found
  obtain ⟨earlier, same⟩ := first index point' found'
  exact ⟨earlier, same'.trans same⟩

theorem same (frames : m'.frames = m.frames) : Stands m m' := by
  intro index point found
  rw [frames] at found ⊢
  exact ⟨⟨point, found⟩, rfl⟩

theorem lower {height : Nat} (frames : m'.frames.toList = m.frames.toList.take height) :
    Stands m m' := by
  intro index point found
  rw [frames] at found ⊢
  have within := (List.getElem?_eq_some_iff.mp found).1
  have below : index < height := Nat.lt_of_lt_of_le within (List.length_take_le height _)
  rw [List.getElem?_take_of_lt below] at found
  rw [List.take_take, Nat.min_eq_left (Nat.le_of_lt below)]
  exact ⟨⟨point, found⟩, rfl⟩

theorem push {frame : Frame} (frames : m'.frames = m.frames.push frame)
    (plain : frame.choice? = none) : Stands m m' := by
  intro index point found
  rw [frames, Array.toList_push] at found ⊢
  rcases getElem?_concat_cases found with below | ⟨_, top⟩
  · have within := (List.getElem?_eq_some_iff.mp below).1
    rw [List.take_append_of_le_length (Nat.le_of_lt within)]
    exact ⟨⟨point, below⟩, rfl⟩
  · rw [← top] at plain
    cases plain

/-- The choice point that is renewed is the innermost one, so none stands on it. -/
theorem renew (chained : m.Chained) {index : Nat} {point : ChoicePoint}
    (caught : m.catchIndex = some index) (found : m.frames[index]? = some (.choice point)) :
    Stands m (m.renewChoice index point) := by
  intro place other held
  have frames : (m.renewChoice index point).frames.toList =
      m.frames.toList.set index
        (.choice { point with pos := m.pos, tree := m.log.mark, bindings := m.bindings.save }) :=
    Array.toList_setIfInBounds
  rw [frames] at held ⊢
  rw [← Array.getElem?_toList] at found
  have stood : ∃ point, m.frames.toList[place]? = some (.choice point) := by
    by_cases here : place = index
    · rw [here]
      exact ⟨point, found⟩
    · rw [List.getElem?_set_ne (Ne.symm here)] at held
      exact ⟨other, held⟩
  obtain ⟨before, standing⟩ := stood
  have below : place ≤ index := by
    have last := chained.innermost
    rw [caught] at last
    exact lastChoice_le last.symm standing
  exact ⟨⟨before, standing⟩, List.take_set_of_le below⟩

end Stands

theorem Update.stands (update : Update task op m m') (chained : m.Chained)
    (plain : ∀ failure, op ≠ .control (.alt failure)) : Stands m m' := by
  cases update with
  | alt failure same => exact absurd same (plain failure)
  | renew index point checks caught found => exact .renew chained caught found
  | save | call | count | checkpoint | enter => exact .push rfl rfl
  | back | drop | emit | leave => exact .lower (drop_frames m)
  | cut | store => exact .lower Array.toList_shrink
  | shift | consume | append | link | define | mask | look | tick | skip | storeFailure =>
      exact .same rfl

theorem Failure.stands (failure : Failure m m') : Stands m m' := by
  cases failure with
  | idle => exact .refl m
  | resume index point caught found => exact .lower Array.toList_shrink

def ChoicesRooted (program : Program) (past : List (Config σ τ)) (m : Machine σ τ) : Prop :=
  Rooted program Op.pushesChoice Frame.choice?
    (fun index _ origin => m.frames.toList.take index = origin.frames.toList) past m.frames.toList

theorem ChoicesRooted.stands (rooted : ChoicesRooted program past m) (stands : Stands m m') :
    ChoicesRooted program past m' := by
  apply Rooted.mono rooted
  intro index frame' point' found' reads'
  cases frame' with
  | choice held =>
      obtain ⟨⟨point, found⟩, same⟩ := stands index held found'
      exact ⟨_, point, found, rfl, fun origin stood => same.trans stood⟩
  | ret | position | tree | bindings | count => cases reads'

theorem ChoicesRooted.push_choice (rooted : ChoicesRooted program past now.machine)
    {failure next : InstId} (found : program.inst? now.place = some ⟨.control (.alt failure), next⟩) :
    ChoicesRooted program (now :: past) (now.machine.pushChoice failure) := by
  have frames : (now.machine.pushChoice failure).frames.toList = now.machine.frames.toList ++ [_] :=
    Array.toList_push
  unfold ChoicesRooted
  rw [frames]
  refine Rooted.push rooted found rfl (fun point _ => ?_) fun index point origin below same => ?_
  · exact List.take_left' Array.length_toList
  · rw [← Array.length_toList] at below
    rw [List.take_append_of_le_length (Nat.le_of_lt below)]
    exact same

theorem ChoicesRooted.step (rooted : ChoicesRooted task.program past now.machine)
    (chained : now.machine.Chained) :
    ChoicesRooted task.program (now :: past) (reached (now.machine.step task now.place)) := by
  by_cases pushes : ∃ failure next,
      task.program.inst? now.place = some ⟨.control (.alt failure), next⟩
  · obtain ⟨failure, next, found⟩ := pushes
    rw [step_eq found]
    exact rooted.push_choice found
  · have kept : (reached (now.machine.step task now.place)).Chained ∧
        ChoicesRooted task.program (now :: past) (reached (now.machine.step task now.place)) := by
      have start : now.machine.Chained ∧ ChoicesRooted task.program (now :: past) now.machine :=
        ⟨chained, Rooted.later rooted⟩
      refine step_keeps
        (P := fun m => m.Chained ∧ ChoicesRooted task.program (now :: past) m) ?_ ?_ start
      · rintro inst found m m' ⟨chained, rooted⟩ update
        have plain (failure : InstId) : inst.op ≠ .control (.alt failure) := by
          intro same
          exact pushes ⟨failure, inst.next, by rw [found, ← same]⟩
        exact ⟨chained.update update, rooted.stands (update.stands chained plain)⟩
      · rintro m m' ⟨chained, rooted⟩ failure
        exact ⟨chained.failure failure, rooted.stands failure.stands⟩
    exact kept.2

/-- Every choice point on the stack was pushed by an earlier step, and it stands on the frames that
this step found. -/
theorem Execution.choices_rooted {options : Options} (execution : Execution task options past now) :
    ChoicesRooted task.program past now.machine := by
  refine execution.keeps (fun past m => ChoicesRooted task.program past m) ?_ ?_ ?_
  · intro nodes index frame point found reads
    have single : frame ∈ [Frame.ret .exitOk] := List.mem_of_getElem? found
    rw [List.mem_singleton.mp single] at reads
    cases reads
  · intro past now before rooted
    exact rooted.step before.chained
  · intro past m reason rooted
    have frames : (m.leave reason).frames = m.frames := by cases reason <;> rfl
    exact (rooted.stands (.same frames)).stands (.push rfl rfl)

/-- A failure under a choice point leads back to the whole stack that the step found that pushed the
choice point, whatever was pushed, popped or renewed since. -/
theorem Execution.failure_returns {options : Options} (execution : Execution task options past now)
    (found : task.program.inst? now.place = some inst) {m₁ : Machine σ τ} {index : Nat}
    (failed : now.machine.exec task now.place inst = .fail m₁)
    (caught : m₁.catchIndex = some index) :
    ∃ point origin m', m₁.frames[index]? = some (.choice point) ∧
      PushedBy task.program Op.pushesChoice past index origin ∧
      now.machine.step task now.place = .goto point.failure m' ∧
      m'.frames = origin.machine.frames := by
  have kept : m₁.Chained ∧ ChoicesRooted task.program past m₁ := by
    have updates := (exec_leaves task now.place inst now.machine).updates
    rw [failed] at updates
    refine updates_keep (P := fun m => m.Chained ∧ ChoicesRooted task.program past m) ?_ updates
      ⟨execution.chained, execution.choices_rooted⟩
    rintro m m' ⟨chained, rooted⟩ update
    -- the one operation that pushes a choice point does not fail
    have plain (failure : InstId) : inst.op ≠ .control (.alt failure) := by
      intro same
      obtain ⟨op, next⟩ := inst
      subst same
      cases failed
    exact ⟨chained.update update, rooted.stands (update.stands chained plain)⟩
  obtain ⟨chained, rooted⟩ := kept
  obtain ⟨point, choice⟩ := chained.found caught
  have step : now.machine.step task now.place = .goto point.failure (m₁.resume index point) := by
    rw [step_eq found, failed]
    simp only [settle, Machine.fail, caught, innermost_eq caught choice]
  obtain ⟨origin, pushed, same⟩ :=
    rooted index (.choice point) point (by rw [Array.getElem?_toList]; exact choice) rfl
  refine ⟨point, origin, _, choice, pushed, step, ?_⟩
  apply Array.toList_inj.mp
  rw [← same]
  exact Array.toList_shrink

end Machine

end Packrat
