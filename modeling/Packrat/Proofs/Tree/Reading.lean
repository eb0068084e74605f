/-
Reading the log place by place. The intents behind a place are built into a node as a list with the open
scopes beside it; the same node comes out of a recursion over the places of the arena, where a nested scope
is read by a call of its own, which reports the `pop` that closed it, and the reading goes on behind that
place. On the chain of live entries this recursion ends, and it looks at no entry twice, whatever the
brackets in the log are like: it goes as far as the first `pop` that has no `push` after the start.
-/

import Packrat.Proofs.Tree.Undoing
import Packrat.Proofs.Tree.Vacant

namespace Packrat

variable {σ τ : Type}

def TreeFactory.counted (factory : TreeFactory σ τ) : TreeFactory (σ × Nat) τ :=
  ⟨fun node state =>
    let (made, nodes) := factory.make node state.1
    (made, (nodes, state.2 + 1))⟩

/-- Leave a scope once it is built: its node becomes a child of the scope around it, and what is left of
the intents is built into that one. -/
def Intent.leave (factory : TreeFactory σ τ) (built : Built τ) (state : σ) :
    (outer : List (Scope τ)) → Built τ × σ
  | [] => (built, state)
  | parent :: outer =>
    let (label, rest) := built.rest.getD (.null, [])
    build factory rest (parent.attach label built.node) outer state

/-- The intents that follow those of a scope, from the `pop` that closes it on. -/
def Intent.remainder : (rest : Option (Symbol × List (Intent τ))) → List (Intent τ)
  | none => []
  | some (label, rest) => .pop label :: rest

theorem Scope.opening_remainder (intents : List (Intent τ)) (rest : Option (Symbol × List (Intent τ))) :
    Scope.opening (intents ++ Intent.remainder rest) = Scope.opening intents := by
  cases intents with
  | nil => cases rest <;> rfl
  | cons first more => rfl

namespace TreeLog

/-! ### Entries by place -/

section Entries

variable (log : TreeLog τ)

def intentAt (place : Nat) : Option (Intent τ) := (log.entry place).intent

def intentsAt (places : List Nat) : List (Intent τ) := places.filterMap log.intentAt

def opens (place : Nat) : Bool :=
  match log.intentAt place with
  | some .push => true
  | _ => false

def closes (place : Nat) : Bool :=
  match log.intentAt place with
  | some (.pop _) => true
  | _ => false

def folds (place : Nat) : Bool :=
  match log.intentAt place with
  | some (.leftFold _ _) => true
  | _ => false

def labelOf : (closing : Option Nat) → Symbol
  | none => .null
  | some place =>
    match log.intentAt place with
    | some (.pop label) => label
    | _ => .null

def openingAt : (cursor : Option Nat) → Scope τ
  | none => .fresh 0
  | some place =>
    match log.intentAt place with
    | some intent => .fresh (Scope.position intent)
    | none => .fresh 0

def following (closing : Option Nat) : Option Nat := closing.bind fun place => (log.entry place).next

def remaining : (places : List Nat) → Option (Symbol × List (Intent τ))
  | [] => none
  | pop :: rest => some (log.labelOf (some pop), log.intentsAt rest)

/-- An entry that opens no scope and closes none is read into the innermost one; the head says nothing. -/
def absorbAt (factory : TreeFactory σ τ) (place : Nat) (scope : Scope τ) (state : σ) : Scope τ × σ :=
  match log.intentAt place with
  | none => (scope, state)
  | some intent => intent.absorb factory scope state

theorem intentsAt_cons (place : Nat) (rest : List Nat) :
    log.intentsAt (place :: rest) = (log.intentAt place).toList ++ log.intentsAt rest := by
  unfold intentsAt
  rw [List.filterMap_cons]
  cases log.intentAt place <;> rfl

theorem intentsAt_append (inside rest : List Nat) :
    log.intentsAt (inside ++ rest) = log.intentsAt inside ++ log.intentsAt rest :=
  List.filterMap_append

end Entries

/-! ### The recursion -/

/-- A nested scope: the place that opened it, the places that were read into it, and the one that closed
it, if one did. -/
structure NestedScope where
  push : Nat
  inside : List Nat
  closing : Option Nat
deriving DecidableEq, Repr

/-- What came of a reading: its node, the places that were read into it with the one that ended it, if one
did, and the scopes that were opened on the way, at every depth. -/
structure Reading (σ τ : Type) where
  node : τ
  state : σ
  closing : Option Nat
  inside : List Nat
  nested : List NestedScope
deriving Repr

namespace Reading

def visits (reading : Reading σ τ) : List Nat := reading.inside ++ reading.closing.toList

def ended (factory : TreeFactory σ τ) (scope : Scope τ) (state : σ) (closing : Option Nat) :
    Reading σ τ :=
  let (node, state) := factory.make scope.node state
  ⟨node, state, closing, [], []⟩

def visit (place : Nat) (reading : Reading σ τ) : Reading σ τ :=
  { reading with inside := place :: reading.inside }

/-- A reading that looked at a `push`, left what came then to an inner reading, and went on. -/
def nest (place : Nat) (inner outer : Reading σ τ) : Reading σ τ :=
  { outer with
    inside := place :: (inner.visits ++ outer.inside)
    nested := ⟨place, inner.inside, inner.closing⟩ :: (inner.nested ++ outer.nested) }

def calls (log : TreeLog τ) (reading : Reading σ τ) : Nat :=
  1 + reading.visits.countP log.folds + reading.visits.countP log.opens

def count (log : TreeLog τ) (before : Nat) (reading : Reading σ τ) : Reading (σ × Nat) τ :=
  ⟨reading.node, (reading.state, before + reading.calls log), reading.closing, reading.inside,
    reading.nested⟩

end Reading

/-- Read the entries from a place on into a scope. Nothing comes of it where `fuel` does not suffice. -/
def read (factory : TreeFactory σ τ) (log : TreeLog τ) :
    (fuel : Nat) → (cursor : Option Nat) → Scope τ → σ → Option (Reading σ τ)
  | 0, _, _, _ => none
  | _ + 1, none, scope, state => some (.ended factory scope state none)
  | fuel + 1, some place, scope, state =>
    let next := (log.entry place).next
    match log.intentAt place with
    | some .push =>
      (read factory log fuel next (log.openingAt next) state).bind fun inner =>
        (read factory log fuel (log.following inner.closing)
          (scope.attach (log.labelOf inner.closing) inner.node) inner.state).map (.nest place inner)
    | some (.pop _) => some (.ended factory scope state (some place))
    | _ =>
      let (scope, state) := log.absorbAt factory place scope state
      (read factory log fuel next scope state).map (.visit place)

def construct (factory : TreeFactory σ τ) (log : TreeLog τ) (fuel : Nat) (start : Nat) (state : σ) :
    Option (Reading σ τ) :=
  log.read factory fuel (some start) (log.openingAt (some start)) state

section Steps

variable {factory : TreeFactory σ τ} {log : TreeLog τ} {place : Nat} {scope : Scope τ} {state : σ}

/-- An entry opens a scope, closes one, or does neither. -/
theorem entry_kinds (log : TreeLog τ) (place : Nat) :
    log.intentAt place = some .push ∨ (∃ label, log.intentAt place = some (.pop label)) ∨
      (log.opens place = false ∧ log.closes place = false) := by
  unfold opens closes
  cases log.intentAt place with
  | none => exact .inr (.inr ⟨rfl, rfl⟩)
  | some intent =>
      cases intent with
      | push => exact .inl rfl
      | pop label => exact .inr (.inl ⟨label, rfl⟩)
      | _ => exact .inr (.inr ⟨rfl, rfl⟩)

theorem push_kind (push : log.intentAt place = some .push) :
    log.opens place = true ∧ log.closes place = false ∧ log.folds place = false := by
  simp only [opens, closes, folds, push, and_self]

theorem pop_kind {label : Symbol} (pop : log.intentAt place = some (.pop label)) :
    log.opens place = false ∧ log.closes place = true ∧ log.folds place = false := by
  simp only [opens, closes, folds, pop, and_self]

theorem pop_of_closes (close_yes : log.closes place = true) :
    ∃ label, log.intentAt place = some (.pop label) := by
  obtain push | pop | plain := entry_kinds log place
  · rw [(push_kind push).2.1] at close_yes
    cases close_yes
  · exact pop
  · rw [plain.2] at close_yes
    cases close_yes

theorem read_push (push : log.intentAt place = some .push) (fuel : Nat) :
    log.read factory (fuel + 1) (some place) scope state =
      (log.read factory fuel (log.entry place).next (log.openingAt (log.entry place).next) state).bind
        fun inner => (log.read factory fuel (log.following inner.closing)
          (scope.attach (log.labelOf inner.closing) inner.node) inner.state).map
            (.nest place inner) := by
  simp only [read, push]

theorem read_pop {label : Symbol} (pop : log.intentAt place = some (.pop label)) (fuel : Nat) :
    log.read factory (fuel + 1) (some place) scope state =
      some (.ended factory scope state (some place)) := by
  simp only [read, pop]

theorem read_plain (plain : log.opens place = false ∧ log.closes place = false) (fuel : Nat) :
    log.read factory (fuel + 1) (some place) scope state =
      (log.read factory fuel (log.entry place).next (log.absorbAt factory place scope state).1
        (log.absorbAt factory place scope state).2).map (.visit place) := by
  obtain ⟨open_no, close_no⟩ := plain
  unfold opens at open_no
  unfold closes at close_no
  rw [read]
  split
  · next push => rw [push] at open_no; cases open_no
  · next pop => rw [pop] at close_no; cases close_no
  · rfl

theorem isScope_eq {intent : Intent τ} (held : log.intentAt place = some intent) :
    intent.isScope = (log.opens place || log.closes place) := by
  simp only [opens, closes, held]
  cases intent <;> rfl

/-- The list of the intents is built in the same way. -/
theorem build_plain (plain : log.opens place = false ∧ log.closes place = false)
    (rest : List (Intent τ)) (outer : List (Scope τ)) :
    Intent.build factory ((log.intentAt place).toList ++ rest) scope outer state =
      Intent.build factory rest (log.absorbAt factory place scope state).1 outer
        (log.absorbAt factory place scope state).2 := by
  unfold absorbAt
  cases held : log.intentAt place with
  | none => rfl
  | some intent =>
      have shape : intent.isScope = false := by
        rw [isScope_eq held, plain.1, plain.2]
        rfl
      exact Intent.build_absorb factory shape rest scope outer state

end Steps

/-! ### Calls of the factory -/

section Calls

variable {factory : TreeFactory σ τ} {log : TreeLog τ}

theorem visits_visit (place : Nat) (reading : Reading σ τ) :
    (reading.visit place).visits = place :: reading.visits := rfl

theorem visits_nest (place : Nat) (inner outer : Reading σ τ) :
    (inner.nest place outer).visits = place :: (inner.visits ++ outer.visits) := by
  simp only [Reading.visits, Reading.nest, List.cons_append, List.append_assoc]

theorem absorbAt_counted (place : Nat) (scope : Scope τ) (state : σ) (before : Nat) :
    log.absorbAt factory.counted place scope (state, before) =
      ((log.absorbAt factory place scope state).1,
        ((log.absorbAt factory place scope state).2,
          before + if log.folds place then 1 else 0)) := by
  unfold absorbAt folds
  cases log.intentAt place with
  | none => rfl
  | some intent =>
      cases intent with
      | link label child => cases child <;> rfl
      | _ => rfl

theorem count_ended {place : Nat} {label : Symbol} (pop : log.intentAt place = some (.pop label))
    (scope : Scope τ) (state : σ) (before : Nat) :
    (Reading.ended factory scope state (some place)).count log before =
      .ended factory.counted scope (state, before) (some place) := by
  obtain ⟨open_no, _, fold_no⟩ := pop_kind pop
  have visits : (Reading.ended factory scope state (some place)).visits = [place] := rfl
  simp only [Reading.count, Reading.calls, visits, List.countP_cons, List.countP_nil, open_no, fold_no]
  rfl

theorem count_visit {place : Nat} (open_no : log.opens place = false) (reading : Reading σ τ)
    (before : Nat) :
    (reading.visit place).count log before =
      (reading.count log (before + if log.folds place then 1 else 0)).visit place := by
  have calls : before + (reading.visit place).calls log =
      before + (if log.folds place then 1 else 0) + reading.calls log := by
    simp only [Reading.calls, visits_visit, List.countP_cons, open_no, Bool.false_eq_true, if_false]
    omega
  simp only [Reading.count, calls]
  rfl

theorem count_nest {place : Nat} (push : log.intentAt place = some .push) (inner outer : Reading σ τ)
    (before : Nat) :
    (inner.nest place outer).count log before =
      (inner.count log before).nest place (outer.count log (before + inner.calls log)) := by
  obtain ⟨open_yes, _, fold_no⟩ := push_kind push
  have calls : before + (inner.nest place outer).calls log =
      before + inner.calls log + outer.calls log := by
    simp only [Reading.calls, visits_nest, List.countP_cons, List.countP_append, open_yes, fold_no,
      Bool.false_eq_true, if_false, if_true]
    omega
  simp only [Reading.count, calls]
  rfl

/-- On any arena a reading calls the factory once for itself, once for each left fold and once for each
nested scope. -/
theorem read_counted (fuel : Nat) (cursor : Option Nat) (scope : Scope τ) (state : σ) (before : Nat) :
    log.read factory.counted fuel cursor scope (state, before) =
      (log.read factory fuel cursor scope state).map (.count log before) := by
  induction fuel generalizing cursor scope state before with
  | zero => rfl
  | succ fuel ih =>
      cases cursor with
      | none => rfl
      | some place =>
          rcases entry_kinds log place with push | ⟨label, pop⟩ | plain
          · rw [read_push push, read_push push, ih]
            cases log.read factory fuel (log.entry place).next
              (log.openingAt (log.entry place).next) state with
            | none => rfl
            | some inner =>
                have outer := ih (log.following inner.closing)
                  (scope.attach (log.labelOf inner.closing) inner.node) inner.state
                  (before + inner.calls log)
                have nest : Reading.nest place (inner.count log before) ∘
                    Reading.count log (before + inner.calls log) =
                      Reading.count log before ∘ Reading.nest place inner :=
                  funext fun outer => (count_nest push inner outer before).symm
                simp only [Option.map_some, Option.bind_some, Option.map_map]
                rw [← nest, ← Option.map_map, ← outer]
                rfl
          · rw [read_pop pop, read_pop pop, Option.map_some, count_ended pop]
          · rw [read_plain plain, read_plain plain, absorbAt_counted, ih, Option.map_map, Option.map_map]
            refine congrArg (Option.map · _) (funext fun reading => ?_)
            exact (count_visit plain.1 reading before).symm

end Calls

end TreeLog

end Packrat
