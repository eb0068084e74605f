/-
Matching without building trees. The run takes the same way as the run that builds them. Its log stays
empty and no node is made until it ends, where a match is given a node of its own.
-/

import Packrat.Proofs.Machine.Invariant
import Packrat.Proofs.Machine.Lockstep

namespace Packrat

namespace Machine

variable {σ τ : Type} {task : Task σ τ} {nodes : σ} {m m' : Machine σ τ}

/-! ### Nothing is logged -/

structure Quiet (nodes : σ) (m : Machine σ τ) : Prop where
  log : m.log = .new false
  nodes : m.nodes = nodes
  frames : m.frames.map Frame.bare = m.frames

namespace Quiet

theorem mark (quiet : Quiet nodes m) : m.log.mark = TreeLog.startMark := by
  rw [quiet.log]
  rfl

theorem push (quiet : Quiet nodes m) {frame : Frame} (plain : frame.bare = frame) :
    Quiet nodes (m.push frame) := by
  have frames : (m.frames.push frame).map Frame.bare = m.frames.push frame := by
    rw [Array.map_push, quiet.frames, plain]
  exact { quiet with frames := frames }

theorem drop (quiet : Quiet nodes m) : Quiet nodes m.drop := by
  have frames : m.frames.pop.map Frame.bare = m.frames.pop := by
    rw [Array.map_pop, quiet.frames]
  exact { quiet with frames := frames }

theorem cut (quiet : Quiet nodes m) (index : Nat) (point : ChoicePoint) :
    Quiet nodes (m.cut index point) := by
  have frames : (m.frames.shrink index).map Frame.bare = m.frames.shrink index := by
    apply Array.toList_inj.mp
    rw [Array.toList_map, Array.toList_shrink, List.map_take, ← Array.toList_map, quiet.frames]
  exact { quiet with frames := frames }

theorem logged (quiet : Quiet nodes m) {change : TreeLog τ → TreeLog τ}
    (idle : change (.new false) = .new false) : Quiet nodes (m.logged change) := by
  have log : change m.log = .new false := by rw [quiet.log, idle]
  exact { quiet with log := log }

theorem pushChoice (quiet : Quiet nodes m) (failure : InstId) :
    Quiet nodes (m.pushChoice failure) := by
  have frames : (m.pushChoice failure).frames.map Frame.bare = (m.pushChoice failure).frames := by
    simp only [Machine.pushChoice, Array.map_push, quiet.frames, quiet.mark, Frame.bare,
      ChoicePoint.bare]
  exact { quiet with frames := frames }

theorem renewChoice (quiet : Quiet nodes m) (index : Nat) (point : ChoicePoint) :
    Quiet nodes (m.renewChoice index point) := by
  have frames : (m.renewChoice index point).frames.map Frame.bare =
      (m.renewChoice index point).frames := by
    simp only [Machine.renewChoice, Array.map_setIfInBounds, quiet.frames, quiet.mark, Frame.bare,
      ChoicePoint.bare]
  exact { quiet with frames := frames }

theorem choice_mark (quiet : Quiet nodes m) {index : Nat} {point : ChoicePoint}
    (found : m.frames[index]? = some (.choice point)) : point.tree = TreeLog.startMark := by
  have same : m.frames[index]?.map Frame.bare = m.frames[index]? := by
    rw [← Array.getElem?_map, quiet.frames]
  rw [found, Option.map_some, Option.some.injEq] at same
  have point_eq : point.bare = point := Frame.choice.inj same
  rw [← point_eq]
  rfl

end Quiet

theorem Update.quiet {op : Op InstId} (update : Update task op m m') (quiet : Quiet nodes m) :
    Quiet nodes m' := by
  cases update with
  | save => exact quiet.push rfl
  | back pos pops => exact { quiet.drop with }
  | shift amount pos same moved => exact { quiet with }
  | call after member => exact quiet.push rfl
  | drop frame pops => exact quiet.drop
  | count left => exact quiet.push rfl
  | alt failure same => exact quiet.pushChoice failure
  | renew index point checks caught found moved => exact quiet.renewChoice index point
  | cut index point caught found => exact quiet.cut index point
  | consume length within => exact { quiet with }
  | append intent => exact quiet.logged rfl
  | link label child => exact quiet.logged rfl
  | checkpoint => exact quiet.push (by rw [quiet.mark]; rfl)
  | emit mark label pops =>
      have idle : m.log.commit task.factory mark label m.nodes = (m.log, m.nodes) := by
        simp only [TreeLog.commit, quiet.log, TreeLog.new, Bool.false_eq_true, if_false]
      have dropped := quiet.drop
      rw [idle]
      exact { dropped with }
  | enter => exact quiet.push rfl
  | leave mark pops => exact { quiet.drop with }
  | define table value => exact { quiet with }
  | mask table => exact { quiet with }
  | look id state => exact { quiet with }
  | tick id change looks => exact { quiet with }
  | skip id state entry found matched => exact { quiet with }
  | store id info index choice result stores known caught found =>
      exact { quiet.cut index choice with }
  | storeFailure id info same known => exact { quiet with }

theorem Failure.quiet (failure : Failure m m') (quiet : Quiet nodes m) : Quiet nodes m' := by
  cases failure with
  | idle => exact { quiet with }
  | resume index point caught found =>
      have log : m.log.abort point.tree = .new false := by
        rw [quiet.choice_mark found, quiet.log]
        rfl
      exact { quiet.cut index point with log := log }

theorem Quiet.steps (quiet : Quiet nodes m) {fuel : Nat} {place : InstId} {reason : Halt}
    (halts : Machine.steps task fuel place m = some (reason, m')) : Quiet nodes m' := by
  induction fuel generalizing place m with
  | zero => cases halts
  | succ fuel ih =>
      have stepped : Quiet nodes (reached (m.step task place)) := by
        apply step_keeps _ _ quiet
        · intro inst _ m₁ m₂ quiet update
          exact update.quiet quiet
        · intro m₁ m₂ quiet failure
          exact failure.quiet quiet
      rw [Machine.steps] at halts
      cases step : m.step task place with
      | goto target m₁ =>
          rw [step] at halts stepped
          exact ih stepped halts
      | halt reason₁ m₁ =>
          rw [step] at halts stepped
          cases halts
          exact stepped

theorem Quiet.leave (quiet : Quiet nodes m) (reason : Halt) : Quiet nodes (m.leave reason) := by
  cases reason with
  | exit matched => exact { quiet with }
  | fault cause => exact quiet
  | trap => exact quiet

theorem Quiet.run (quiet : Quiet nodes m) {fuel : Nat} {start : InstId} {reason : Halt}
    (halts : m.run task fuel start = some (reason, m')) : Quiet nodes m' := by
  have entered : Quiet nodes (m.push (.ret .exitOk)) := quiet.push rfl
  rw [run_eq_leave, Option.map_eq_some_iff] at halts
  obtain ⟨⟨reason', m₁⟩, halts', same⟩ := halts
  cases same
  exact (entered.steps halts').leave reason'

/-! ### New machines -/

theorem alike_initial (program : Program) (options : Options) (nodes : σ) (trees trees' : Bool) :
    Alike (initial program { options with tree := trees } nodes : Machine σ τ)
      (initial program { options with tree := trees' } nodes) :=
  ⟨rfl, rfl, rfl, rfl, rfl, .refl _, rfl⟩

theorem quiet_initial (program : Program) (options : Options) (nodes : σ) :
    Quiet nodes (initial program { options with tree := false } nodes : Machine σ τ) :=
  ⟨rfl, rfl, Array.map_empty⟩

/-! ### Reports -/

def wholeNode (position : Nat) : Node τ := ⟨.null, 0, position, [], none⟩

/-- An answer with a tree and the answer without one. The run has not ended in both, or has the same
fault, or the reports are the same but for the tree. Without trees a match is given one node, the only
one that the factory makes, and nothing else is. -/
inductive Agrees (factory : TreeFactory σ τ) (nodes : σ) :
    Option (Answer σ τ) → Option (Answer σ τ) → Prop
  | unfinished : Agrees factory nodes none none
  | fault (cause : Fault) : Agrees factory nodes (some (.fault cause)) (some (.fault cause))
  | trap : Agrees factory nodes (some .trap) (some .trap)
  | outcome {built bare : Outcome τ} {left left' : σ} (matched : built.matched = bare.matched)
      (position : built.position = bare.position)
      (maxPosition : built.maxPosition = bare.maxPosition) (stats : built.stats = bare.stats)
      (single : bare.matched = true → ∃ tree, bare.tree = some tree ∧
        factory.make (wholeNode bare.position) nodes = (tree, left'))
      (nothing : bare.matched = false → bare.tree = none ∧ left' = nodes) :
      Agrees factory nodes (some (.outcome built left)) (some (.outcome bare left'))

theorem Alike.outcome (alike : Alike m m') (quiet : Quiet nodes m') (task : Task σ τ)
    (options options' : Options) (matched : Bool) :
    Agrees task.factory nodes
      (some (.outcome (m.outcome task options matched).1 (m.outcome task options matched).2))
      (some (.outcome (m'.outcome task options' matched).1
        (m'.outcome task options' matched).2)) := by
  have furthest : m.maxPosition = m'.maxPosition := by
    unfold maxPosition
    rw [alike.head, alike.pos]
  cases matched with
  | false =>
      refine .outcome rfl alike.pos furthest alike.stats ?_ ?_
      · intro impossible
        cases impossible
      · intro _
        exact ⟨rfl, quiet.nodes⟩
  | true =>
      have intents : m'.log.intents = [] := by
        rw [quiet.log]
        rfl
      refine .outcome rfl alike.pos furthest alike.stats ?_ ?_
      · intro _
        refine ⟨(task.factory.make (wholeNode m'.pos) nodes).1, ?_, ?_⟩
        · simp only [Machine.outcome, if_true, TreeLog.parseResult, intents, quiet.nodes]
          rfl
        · simp only [Machine.outcome, if_true, TreeLog.parseResult, intents, quiet.nodes]
          rfl
      · intro impossible
        cases impossible

/-- Whether trees are built changes nothing in the report but the tree. -/
theorem execute_agrees (task : Task σ τ) (fuel : Nat) (start : InstId) (options : Options)
    (nodes : σ) (trees : Bool) :
    Agrees task.factory nodes (execute task fuel start { options with tree := trees } nodes)
      (execute task fuel start { options with tree := false } nodes) := by
  unfold execute
  rcases (alike_initial task.program options nodes trees false).run task fuel start with
    ⟨stuck, stuck'⟩ | ⟨reason, m, m', halts, halts', alike⟩
  · rw [stuck, stuck']
    exact .unfinished
  · rw [halts, halts']
    have quiet := (quiet_initial task.program options nodes).run halts'
    cases reason with
    | fault cause => exact .fault cause
    | trap => exact .trap
    | exit matched => exact alike.outcome quiet task _ _ matched

/-- Building trees never influences matching. A run that builds trees and one that does not stand before
the same instructions step by step, with the same cursor, stack, bindings and statistics, up to marks of
the log and nodes of memoized outcomes. So the answers are the same but for the tree, and where none is
built a match has one node, without tag or children, from the start of the input to the cursor. -/
theorem trees_do_not_influence_matching (task : Task σ τ) (options : Options) (start : InstId)
    (nodes : σ) :
    (∀ count, SameTransition
      (advanceBy task count (.goto start
        ((initial task.program { options with tree := true } nodes).push (.ret .exitOk))))
      (advanceBy task count (.goto start
        ((initial task.program { options with tree := false } nodes).push (.ret .exitOk))))) ∧
    (∀ fuel, Agrees task.factory nodes
      (execute task fuel start { options with tree := true } nodes)
      (execute task fuel start { options with tree := false } nodes)) ∧
    ∀ (parser : Parser) (input : Input) (fuel : Nat),
      Agrees Tree.factory () (parser.parse input fuel) (parser.recognize input fuel) := by
  refine ⟨fun count => ?_, fun fuel => ?_, fun parser input fuel => ?_⟩
  · apply SameTransition.advanceBy
    exact .goto start ((alike_initial task.program options nodes true false).push rfl)
  · exact execute_agrees task fuel start options nodes true
  · exact execute_agrees ⟨parser.program, input, Tree.factory⟩ fuel parser.program.start
      parser.options () parser.options.tree

end Machine

end Packrat
