/-
Positions stay inside the input. As long as no instruction moves the cursor by a given amount, every
position that the machine holds is one that the cursor had, and the cursor only moves over bytes that
are there: those of a match, or those of a match that was recorded. If nothing is logged beyond the
cursor either, the nodes that are handed to a factory lie inside the input as well.
-/

import Packrat.Proofs.Machine.Progress
import Packrat.Proofs.Memo.Contents

namespace Packrat

def Op.raises {t : Type} (op : Op t) : Bool := op.placement?.any fun shift => decide (0 < shift)

/-- No instruction logs a position beyond the cursor. -/
def Program.Unraised (program : Program) : Prop := ∀ inst ∈ program.insts, inst.op.raises = false

theorem Program.Unraised.op {program : Program} (unraised : program.Unraised) {place : InstId}
    {inst : Inst InstId} (found : program.inst? place = some inst) : inst.op.raises = false :=
  unraised inst (Array.mem_of_getElem? found)

namespace Machine

variable {σ τ : Type} {task : Task σ τ} {options : Options} {past : List (Config σ τ)}
  {now : Config σ τ} {m m' : Machine σ τ} {op : Op InstId}

/-! ### Positions -/

structure Contained (input : Input) (m : Machine σ τ) : Prop where
  pos : m.pos ≤ input.size
  head : m.head ≤ input.size
  saved : ∀ frame ∈ m.frames.toList, ∀ pos, frame.savedPosition? = some pos → pos ≤ input.size
  memo : ∀ slot, m.memo.Holds slot → slot.pos + slot.entry.consumed ≤ input.size

theorem mem_push {frame top : Frame} (member : frame ∈ (m.push top).frames.toList) :
    frame ∈ m.frames.toList ∨ frame = top := by
  unfold Machine.push at member
  rw [Array.toList_push, List.mem_append, List.mem_singleton] at member
  exact member

theorem mem_shrink {frame : Frame} {index : Nat}
    (member : frame ∈ (m.frames.shrink index).toList) : frame ∈ m.frames.toList := by
  rw [Array.toList_shrink] at member
  exact List.mem_of_mem_take member

/-- A position is saved where it was saved before, or it is the one of the cursor. -/
theorem Update.saved (update : Update task op m m') {frame : Frame}
    (member : frame ∈ m'.frames.toList) {pos : Nat} (saved : frame.savedPosition? = some pos) :
    frame ∈ m.frames.toList ∨ pos = m.pos := by
  have pushed (top : Frame) (placed : ∀ pos, top.savedPosition? = some pos → pos = m.pos)
      (member : frame ∈ (m.push top).frames.toList) : frame ∈ m.frames.toList ∨ pos = m.pos := by
    rcases mem_push member with below | rfl
    · exact .inl below
    · exact .inr (placed pos saved)
  have dropped (member : frame ∈ m.frames.pop.toList) : frame ∈ m.frames.toList := by
    rw [Array.toList_pop] at member
    exact List.dropLast_subset _ member
  cases update with
  | save =>
      refine pushed (.position m.pos) (fun pos same => ?_) member
      cases same
      rfl
  | alt failure same =>
      let point : ChoicePoint := ⟨failure, m.pos, m.log.mark, m.bindings.save, m.catchIndex⟩
      refine pushed (.choice point) (fun pos same => ?_) member
      cases same
      rfl
  | call | count | checkpoint | enter =>
      refine pushed _ (fun pos same => ?_) member
      cases same
  | back | drop | emit | leave => exact .inl (dropped member)
  | cut | store => exact .inl (mem_shrink member)
  | renew index point checks caught found moved =>
      unfold renewChoice at member
      rw [Array.toList_setIfInBounds] at member
      rcases List.mem_or_eq_of_mem_set member with before | renewed
      · exact .inl before
      · rw [renewed] at saved
        exact .inr (Option.some.inj saved).symm
  | shift | consume | append | link | define | mask | look | tick | skip | storeFailure =>
      exact .inl member

theorem Contained.found {input : Input} (contained : Contained input m) {index : Nat}
    {frame : Frame} (found : m.frames[index]? = some frame) {pos : Nat}
    (saved : frame.savedPosition? = some pos) : pos ≤ input.size := by
  rw [← Array.getElem?_toList] at found
  exact contained.saved frame (List.mem_of_getElem? found) pos saved

theorem Update.contained (update : Update task op m m') (still : op.moves = false)
    (contained : Contained task.input m) : Contained task.input m' := by
  have saved : ∀ frame ∈ m'.frames.toList, ∀ pos, frame.savedPosition? = some pos →
      pos ≤ task.input.size := by
    intro frame member pos same
    rcases update.saved member same with before | here
    · exact contained.saved frame before pos same
    · rw [here]
      exact contained.pos
  have furthest : max m.head m.pos ≤ task.input.size := Nat.max_le.mpr ⟨contained.head, contained.pos⟩
  cases update with
  | back pos pops same =>
      have top := pops.top
      rw [Array.back?_eq_getElem?] at top
      exact ⟨contained.found top rfl, furthest, saved, contained.memo⟩
  | shift amount pos same moved =>
      rw [same] at still
      cases still
  | consume length within =>
      have here := contained.pos
      have after : m.pos + length ≤ task.input.size := by omega
      exact ⟨after, contained.head, saved, contained.memo⟩
  | skip id state entry found matched =>
      exact ⟨contained.memo _ (MemoTable.holds_of_find found), contained.head, saved, contained.memo⟩
  | store id info index choice result stores known caught found =>
      refine ⟨contained.pos, contained.head, saved, fun slot holds => ?_⟩
      rcases MemoTable.holds_record holds with rfl | before
      -- A rule that ends before its start is recorded as if it consumed nothing.
      · have start : choice.pos ≤ task.input.size := contained.found found rfl
        have here := contained.pos
        change choice.pos + (m.pos - choice.pos) ≤ task.input.size
        omega
      · exact contained.memo slot before
  | storeFailure id info same known =>
      refine ⟨contained.pos, contained.head, saved, fun slot holds => ?_⟩
      rcases MemoTable.holds_record holds with rfl | before
      · exact contained.pos
      · exact contained.memo slot before
  | save | call | drop | count | alt | renew | cut | append | link | checkpoint | emit | enter | leave
  | define | mask | look | tick =>
      exact ⟨contained.pos, contained.head, saved, contained.memo⟩

theorem Failure.contained {input : Input} (failure : Failure m m') (contained : Contained input m) :
    Contained input m' := by
  cases failure with
  | idle => exact { contained with }
  | resume index point caught found =>
      refine ⟨contained.found found rfl, Nat.max_le.mpr ⟨contained.head, contained.pos⟩, ?_,
        contained.memo⟩
      intro frame member pos same
      exact contained.saved frame (mem_shrink member) pos same

theorem Contained.step (contained : Contained task.input m) (moveless : task.program.Moveless)
    (place : InstId) : Contained task.input (reached (m.step task place)) := by
  apply step_keeps _ _ contained
  · intro inst found m m' contained update
    exact update.contained (moveless.op found) contained
  · intro m m' contained failure
    exact failure.contained contained

theorem Contained.enter {input : Input} (contained : Contained input m) (target : InstId) :
    Contained input (m.push (.ret target)) := by
  refine { contained with saved := fun frame member pos same => ?_ }
  rcases mem_push member with below | rfl
  · exact contained.saved frame below pos same
  · cases same

theorem Contained.leave {input : Input} (contained : Contained input m) (reason : Halt) :
    Contained input (m.leave reason) := by
  cases reason <;> exact { contained with }

theorem Execution.contained (execution : Execution task options past now)
    (moveless : task.program.Moveless) : Contained task.input now.machine := by
  refine execution.keeps (fun _ m => Contained task.input m) ?_ ?_ ?_
  · intro nodes
    have fresh : Contained task.input (initial task.program options nodes : Machine σ τ) := by
      refine ⟨Nat.zero_le _, Nat.zero_le _, fun frame member => ?_, fun slot holds => ?_⟩
      · cases member
      · exact absurd holds (MemoTable.not_holds_ofOptions options _ slot)
    exact fresh.enter .exitOk
  · intro past now _ contained
    exact contained.step moveless now.place
  · intro past m reason contained
    exact (contained.leave reason).enter .exitOk

/-! ### Nodes -/

section Nodes

variable {Good : τ → Prop} {Sound : σ → Prop}

/-- What is logged is inside a bound, and all nodes that the machine holds satisfy a condition. -/
structure Spans (bound : Nat) (Good : τ → Prop) (Sound : σ → Prop) (m : Machine σ τ) : Prop where
  log : m.log.Within bound Good
  memo : ∀ slot, m.memo.Holds slot → ∀ node, slot.entry.result = some node → Good node
  nodes : Sound m.nodes

/-- A position that is not beyond the cursor. -/
theorem Places.le {pos : Nat} (places : m.Places op pos) (low : op.raises = false) : pos ≤ m.pos := by
  obtain ⟨shift, named, shifted⟩ := places
  unfold Op.raises at low
  rw [named] at low
  have back : ¬ 0 < shift := of_decide_eq_false low
  unfold shiftedFrom at shifted
  dsimp only at shifted
  split at shifted
  · cases shifted
    omega
  · cases shifted

theorem Update.spans (update : Update task op m m') (low : op.raises = false)
    (keeps : task.factory.Keeps task.input.size Good Sound) (inside : m.pos ≤ task.input.size)
    (spans : Spans task.input.size Good Sound m) : Spans task.input.size Good Sound m' := by
  cases update with
  | append intent logs =>
      have within : intent.Within task.input.size Good := by
        constructor
        · intro pos placed
          exact Nat.le_trans ((logs.placed pos placed).le low) inside
        · intro child attached
          rw [logs.bare] at attached
          cases attached
      exact { spans with log := spans.log.append within }
  | link label child known =>
      refine { spans with log := spans.log.link label fun node same => ?_ }
      obtain ⟨pos, id, state, entry, found, result⟩ := known node same
      exact spans.memo _ (MemoTable.holds_of_find found) node result
  | emit mark label pops =>
      obtain ⟨log, nodes⟩ := spans.log.commit keeps mark label spans.nodes
      exact ⟨log, spans.memo, nodes⟩
  | store id info index choice result stores known caught found =>
      refine { spans with memo := fun slot holds node attached => ?_ }
      rcases MemoTable.holds_record holds with rfl | before
      · rcases stores with ⟨_, none⟩ | ⟨_, latest⟩
        · have vacant : result = some node := attached
          rw [none] at vacant
          cases vacant
        · exact spans.log.latest node (latest.symm.trans attached)
      · exact spans.memo slot before node attached
  | storeFailure id info same known =>
      refine { spans with memo := fun slot holds node attached => ?_ }
      rcases MemoTable.holds_record holds with rfl | before
      · cases attached
      · exact spans.memo slot before node attached
  | save | back | shift | call | drop | count | alt | renew | cut | consume | checkpoint | enter
  | leave | define | mask | look | tick | skip => exact { spans with }

theorem Failure.spans {bound : Nat} (failure : Failure m m') (spans : Spans bound Good Sound m) :
    Spans bound Good Sound m' := by
  cases failure with
  | idle => exact { spans with }
  | resume index point caught found => exact { spans with log := spans.log.abort point.tree }

theorem Spans.step (spans : Spans task.input.size Good Sound m)
    (contained : Contained task.input m) (moveless : task.program.Moveless)
    (unraised : task.program.Unraised) (keeps : task.factory.Keeps task.input.size Good Sound)
    (place : InstId) : Spans task.input.size Good Sound (reached (m.step task place)) := by
  have both : Contained task.input (reached (m.step task place)) ∧
      Spans task.input.size Good Sound (reached (m.step task place)) := by
    refine step_keeps (P := fun m => Contained task.input m ∧ Spans task.input.size Good Sound m)
      ?_ ?_ ⟨contained, spans⟩
    · rintro inst found m m' ⟨contained, spans⟩ update
      exact ⟨update.contained (moveless.op found) contained,
        update.spans (unraised.op found) keeps contained.pos spans⟩
    · rintro m m' ⟨contained, spans⟩ failure
      exact ⟨failure.contained contained, failure.spans spans⟩
  exact both.2

theorem Spans.leave {bound : Nat} (spans : Spans bound Good Sound m) (reason : Halt) :
    Spans bound Good Sound (m.leave reason) := by
  cases reason <;> exact { spans with }

theorem Execution.spans (execution : Execution task options past now)
    (moveless : task.program.Moveless) (unraised : task.program.Unraised)
    (keeps : task.factory.Keeps task.input.size Good fun _ => True) :
    Spans task.input.size Good (fun _ => True) now.machine := by
  refine execution.keeps (fun _ m => Spans task.input.size Good (fun _ => True) m) ?_ ?_ ?_
  · intro nodes
    refine ⟨.new options.tree, fun slot holds => ?_, trivial⟩
    exact absurd holds (MemoTable.not_holds_ofOptions options _ slot)
  · intro past now before spans
    exact spans.step (before.contained moveless) moveless unraised keeps now.place
  · intro past m reason spans
    exact { spans.leave reason with }

/-- What an instruction that halts the run leaves. -/
theorem Execution.halted (execution : Execution task options past now)
    (moveless : task.program.Moveless) (unraised : task.program.Unraised)
    (keeps : task.factory.Keeps task.input.size Good fun _ => True) {reason : Halt}
    (halts : now.machine.step task now.place = .halt reason m) :
    (m.leave reason).pos ≤ task.input.size ∧
      Spans task.input.size Good (fun _ => True) (m.leave reason) := by
  have contained := (execution.contained moveless).step moveless now.place
  have spans := (execution.spans moveless unraised keeps).step (execution.contained moveless) moveless
    unraised keeps now.place
  rw [halts] at contained spans
  exact ⟨(contained.leave reason).pos, spans.leave reason⟩

/-- The tree of a match is built from nodes inside the bound, too. -/
theorem Spans.outcome (spans : Spans task.input.size Good Sound m)
    (keeps : task.factory.Keeps task.input.size Good Sound) (inside : m.pos ≤ task.input.size)
    (matched : Bool) :
    (∀ tree, (m.outcome task options matched).1.tree = some tree → Good tree) ∧
      Sound (m.outcome task options matched).2 := by
  cases matched with
  | false =>
      refine ⟨fun tree none => ?_, spans.nodes⟩
      cases none
  | true =>
      obtain ⟨good, sound⟩ :=
        spans.log.parseResult keeps (Nat.zero_le _) inside spans.nodes
      refine ⟨fun tree built => ?_, sound⟩
      cases built
      exact good

end Nodes

end Machine

/-! ### What a factory is handed -/

/-- A factory that keeps all nodes that it is handed beside the state of another one. -/
def TreeFactory.watched {σ τ : Type} (factory : TreeFactory σ τ) :
    TreeFactory (σ × List (Node τ)) τ :=
  ⟨fun node state =>
    ((factory.make node state.1).1, ((factory.make node state.1).2, state.2 ++ [node]))⟩

def HandedWithin {τ : Type} (bound : Nat) (before after : List (Node τ)) : Prop :=
  ∃ handed, after = before ++ handed ∧ ∀ node ∈ handed, node.start ≤ bound ∧ node.stop ≤ bound

namespace TreeFactory

variable {σ τ : Type} {bound : Nat}

theorem keeps_anything (factory : TreeFactory σ τ) (bound : Nat) :
    factory.Keeps bound (fun _ => True) fun _ => True :=
  fun _ _ _ _ => ⟨trivial, trivial⟩

theorem watched_keeps (factory : TreeFactory σ τ) (before : List (Node τ)) :
    factory.watched.Keeps bound (fun _ => True) fun state => HandedWithin bound before state.2 := by
  rintro node state within ⟨handed, same, inside⟩
  refine ⟨trivial, handed ++ [node], ?_, fun other member => ?_⟩
  · change state.2 ++ [node] = before ++ (handed ++ [node])
    rw [same, List.append_assoc]
  · rcases List.mem_append.mp member with earlier | last
    · exact inside other earlier
    · rw [List.mem_singleton.mp last]
      exact ⟨within.start, within.stop⟩

end TreeFactory

namespace Tree

/-- All rows of a tree are inside a bound, wherever the tree stands in a greater one. -/
def RowsWithin (bound : Nat) (tree : Tree) : Prop :=
  ∀ depth label rows, ∀ row ∈ pushRows depth label rows tree,
    row ∈ rows ∨ (row.start ≤ bound ∧ row.stop ≤ bound)

theorem pushChildren_within {bound : Nat} {children : List (Symbol × Tree)}
    (within : ∀ child ∈ children, RowsWithin bound child.2) (depth : Nat) (rows : Array Row) :
    ∀ row ∈ pushChildren depth rows children,
      row ∈ rows ∨ (row.start ≤ bound ∧ row.stop ≤ bound) := by
  induction children generalizing rows with
  | nil => exact fun row member => .inl member
  | cons child rest ih =>
      obtain ⟨label, child⟩ := child
      intro row member
      rw [pushChildren] at member
      have later : ∀ child ∈ rest, RowsWithin bound child.2 :=
        fun other member => within other (List.mem_cons_of_mem _ member)
      rcases ih later _ row member with first | inside
      · exact within (label, child) List.mem_cons_self (depth + 1) label rows row first
      · exact .inr inside

theorem factory_keeps (bound : Nat) : factory.Keeps bound (RowsWithin bound) fun _ => True := by
  intro node state within _
  refine ⟨fun depth label rows row member => ?_, trivial⟩
  change row ∈ pushRows depth label rows (.node node.tag node.start node.stop node.children node.value)
    at member
  rw [pushRows] at member
  rcases pushChildren_within within.children depth _ row member with first | inside
  · rcases Array.mem_push.mp first with before | rfl
    · exact .inl before
    · exact .inr ⟨within.start, within.stop⟩
  · exact .inr inside

theorem RowsWithin.rows {bound : Nat} {tree : Tree} (within : tree.RowsWithin bound) :
    ∀ row ∈ tree.rows, row.start ≤ bound ∧ row.stop ≤ bound := by
  intro row member
  rcases within 0 .null #[] row member with none | inside
  · exact absurd none (Array.not_mem_empty row)
  · exact inside

end Tree

namespace Machine

/-- From any state on, a factory can be watched. -/
theorem Spans.watch {σ τ : Type} {bound : Nat} {m : Machine (σ × List (Node τ)) τ}
    (spans : Spans bound (fun _ => True) (fun _ => True) m) :
    Spans bound (fun _ => True) (fun state => HandedWithin bound m.nodes.2 state.2) m where
  log := spans.log
  memo := spans.memo
  nodes := ⟨[], (List.append_nil _).symm, fun _ member => by cases member⟩

/-- In a program that nowhere moves the cursor by a given amount, all positions stay inside the input,
whatever instructions are executed and however often the machine is run: the cursor, the furthest
position, the saved positions and the ends of the memoized outcomes, and so the positions that are
reported. If no instruction logs a position beyond the cursor, whatever a step or a report hands to the
factory is a node inside the input, and the rows of the tree that is reported are. -/
theorem positions_stay_inside {program : Program} (moveless : program.Moveless) (input : Input)
    (options : Options) :
    (∀ (σ τ : Type) (factory : TreeFactory σ τ) (past : List (Config σ τ)) (now : Config σ τ),
      let task : Task σ τ := ⟨program, input, factory⟩
      Execution task options past now →
      Contained input now.machine ∧
      ∀ reason m, now.machine.step task now.place = .halt reason m →
        Contained input m ∧
        ∀ matched, let report := ((m.leave reason).outcome task options matched).1
          report.position ≤ input.size ∧ report.maxPosition ≤ input.size) ∧
    (program.Unraised →
      (∀ (σ τ : Type) (factory : TreeFactory σ τ) (past : List (Config (σ × List (Node τ)) τ))
          (now : Config (σ × List (Node τ)) τ),
        let task : Task (σ × List (Node τ)) τ := ⟨program, input, factory.watched⟩
        Execution task options past now →
        HandedWithin input.size now.machine.nodes.2
          (reached (now.machine.step task now.place)).nodes.2 ∧
        ∀ reason m, now.machine.step task now.place = .halt reason m → ∀ matched,
          HandedWithin input.size m.nodes.2
            ((m.leave reason).outcome task options matched).2.2) ∧
      ∀ (past : List (Config Unit Tree)) (now : Config Unit Tree),
        let task : Task Unit Tree := ⟨program, input, Tree.factory⟩
        Execution task options past now →
        ∀ reason m, now.machine.step task now.place = .halt reason m → ∀ matched tree,
          ((m.leave reason).outcome task options matched).1.tree = some tree →
          ∀ row ∈ tree.rows, row.start ≤ input.size ∧ row.stop ≤ input.size) := by
  refine ⟨?_, fun unraised => ⟨?_, ?_⟩⟩
  · intro σ τ factory past now task execution
    have contained := execution.contained moveless
    refine ⟨contained, fun reason m halts => ?_⟩
    have halted := contained.step moveless now.place
    rw [halts] at halted
    refine ⟨halted, fun matched => ?_⟩
    have left := halted.leave reason
    cases matched with
    | false => exact ⟨left.pos, Nat.max_le.mpr ⟨left.head, left.pos⟩⟩
    | true => exact ⟨left.pos, Nat.max_le.mpr ⟨left.head, left.pos⟩⟩
  · intro σ τ factory past now task execution
    have anything := factory.watched.keeps_anything input.size
    constructor
    · have spans := (execution.spans moveless unraised anything).watch
      exact (spans.step (execution.contained moveless) moveless unraised (factory.watched_keeps _)
        now.place).nodes
    · intro reason m halts matched
      obtain ⟨inside, spans⟩ := execution.halted moveless unraised anything halts
      have same : (m.leave reason).nodes = m.nodes := by cases reason <;> rfl
      rw [← same]
      exact (spans.watch.outcome (factory.watched_keeps _) inside matched).2
  · intro past now task execution reason m halts matched tree built
    have keeps := Tree.factory_keeps input.size
    obtain ⟨inside, spans⟩ := execution.halted moveless unraised keeps halts
    exact ((spans.outcome keeps inside matched).1 tree built).rows

/-- Code that matches the byte `a` as a node. -/
def spanProgram : Program where
  insts := #[⟨.control (.exit false), .exitFail⟩, ⟨.control (.exit true), .exitOk⟩,
    ⟨.tree (.node 0), ⟨3⟩⟩, ⟨.test (.byte 0x61) .once, ⟨4⟩⟩,
    ⟨.tree (.close 0 ⟨1⟩ none), .exitOk⟩]
  sets := .empty
  literals := .empty
  dispatch := #[]
  memoPoints := #[]
  symbols := .initial
  start := ⟨2⟩

/-- The node ends where the input does. -/
theorem positions_stay_inside_span :
    let task : Task Unit Tree := ⟨spanProgram, .ofBytes #[0x61], Tree.factory⟩
    ∃ past now m tree, Execution task .initial past now ∧
      now.machine.step task now.place = .halt (.exit true) m ∧ m.pos = 1 ∧
      ((m.leave (.exit true)).outcome task .initial true).1.tree = some tree ∧
      tree.rows = #[⟨0, .null, ⟨1⟩, 0, 1, none⟩] ∧ m.pos ≤ task.input.size ∧
      ∀ row ∈ tree.rows, row.start ≤ task.input.size ∧ row.stop ≤ task.input.size := by
  dsimp only
  let task : Task Unit Tree := ⟨spanProgram, .ofBytes #[0x61], Tree.factory⟩
  let start : Machine Unit Tree := (initial spanProgram .initial ()).push (.ret .exitOk)
  let begun := start.logged fun log => log.append (.begin 0)
  let matched := begun.advance 1
  let closed := matched.logged fun log => closeNode log 1 ⟨1⟩ none
  have opens : start.step task ⟨2⟩ = .goto ⟨3⟩ begun := by
    have shifted : shiftedFrom start.pos 0 = some 0 := by decide
    have found : task.program.inst? ⟨2⟩ = some ⟨.tree (.node 0), ⟨3⟩⟩ := rfl
    rw [step_eq found]
    simp only [exec, treeStep, logAt, shifted, settle, begun]
  have closes : matched.step task ⟨4⟩ = .goto .exitOk closed := by
    have shifted : shiftedFrom matched.pos 0 = some 1 := by decide
    have found : task.program.inst? ⟨4⟩ = some ⟨.tree (.close 0 ⟨1⟩ none), .exitOk⟩ := rfl
    rw [step_eq found]
    simp only [exec, treeStep, literalValue?, shifted, settle, closed]
  have first : Execution task .initial _ ⟨⟨3⟩, begun⟩ := .step (.enter ⟨2⟩ ()) opens
  have second : Execution task .initial _ ⟨⟨4⟩, matched⟩ := .step first rfl
  have ends : Execution task .initial _ ⟨.exitOk, closed⟩ := .step second closes
  have halts : closed.step task .exitOk = .halt (.exit true) closed := rfl
  have moveless : spanProgram.Moveless := by
    unfold Program.Moveless
    decide
  have unraised : spanProgram.Unraised := by
    unfold Program.Unraised
    decide
  obtain ⟨positions, nodes⟩ := positions_stay_inside moveless (.ofBytes #[0x61]) .initial
  have halted := (positions Unit Tree Tree.factory _ _ ends).2 (.exit true) closed halts
  have built : ((closed.leave (.exit true)).outcome
      ⟨spanProgram, .ofBytes #[0x61], Tree.factory⟩ .initial true).1.tree =
        some (.node ⟨1⟩ 0 1 [] none) := by decide +kernel
  have rows := (nodes unraised).2 _ _ ends (.exit true) closed halts true _ built
  have listed : (Tree.node ⟨1⟩ 0 1 [] none).rows = #[⟨0, .null, ⟨1⟩, 0, 1, none⟩] := by decide +kernel
  have inside : closed.pos ≤ task.input.size := halted.1.pos
  exact ⟨_, ⟨.exitOk, closed⟩, closed, .node ⟨1⟩ 0 1 [] none, ends, halts, rfl, built, listed, inside,
    rows⟩

end Machine

end Packrat
