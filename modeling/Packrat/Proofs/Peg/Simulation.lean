/-
The machine follows the derivations of expressions. What a run does between the entry of the code
of an expression and its continuation, or its failure, is told from the state at the entry,
whatever is on the stack there and whatever else the program holds. The table of memoized outcomes
is followed along: every outcome in it has a derivation that went no further than the machine did.
So are the lookups that it has no answer to: they are for rules that the evaluation calls, and a
table that keeps every outcome has learnt them at the end.
-/

import Packrat.Proofs.Memo.Exact
import Packrat.Proofs.Memo.Record
import Packrat.Proofs.Peg.Calls
import Packrat.Proofs.Peg.Code

namespace Packrat.Peg

variable {ρ σ τ : Type}

def stopOf (pos : Nat) (entry : MemoEntry τ) : Option Nat :=
  if entry.failed then none else some (pos + entry.consumed)

/-- Every memoized outcome is the true one, and the machine has been as far as its derivation. -/
def Faithful (input : Input) (rules : ρ → Expr ρ) (layout : Layout ρ) (m : Machine σ τ) : Prop :=
  ∀ pos point rule entry, layout.memoized point = some rule →
    (m.memo.find pos point none).1 = some entry →
    ∃ far, Derives input rules (rules rule) pos (stopOf pos entry) far ∧ far ≤ m.maxPosition

/-- An expression succeeded: the cursor stands at its end, and the state that a failure would undo
is as it was. -/
structure Arrives (input : Input) (rules : ρ → Expr ρ) (layout : Layout ρ) (m : Machine σ τ)
    (stop far : Nat) (m' : Machine σ τ) : Prop where
  pos : m'.pos = stop
  same : Machine.SameUndo m m'
  furthest : m'.maxPosition = max m.maxPosition far
  faithful : Faithful input rules layout m'

/-- An expression failed: the run has resumed at the choice point that was innermost at its entry.
-/
structure Falls (input : Input) (rules : ρ → Expr ρ) (layout : Layout ρ) (m : Machine σ τ)
    (far : Nat) (target : InstId) (m' : Machine σ τ) : Prop where
  unwinds : Machine.Unwinds m target m'
  furthest : m'.maxPosition = max m.landing (max m.maxPosition far)
  faithful : Faithful input rules layout m'

/-- A run from `place` ends as the outcome says, seen from the state `m`. -/
def Performs (task : Task σ τ) (rules : ρ → Expr ρ) (layout : Layout ρ) (place : InstId)
    (start m : Machine σ τ) (k : InstId) (far : Nat) : (result : Option Nat) → Prop
  | some stop =>
    ∃ m', Machine.Reaches task place start k m' ∧
      Arrives task.input rules layout m stop far m'
  | none =>
    ∃ target m', Machine.Reaches task place start target m' ∧
      Falls task.input rules layout m far target m'

/-- The code of an expression does what its outcome says, from every state. -/
def Follows (task : Task σ τ) (rules : ρ → Expr ρ) (layout : Layout ρ) (e : Expr ρ) (pos : Nat)
    (result : Option Nat) (far : Nat) : Prop :=
  ∀ place k (m : Machine σ τ), ExprCode task.program layout e place k → m.pos = pos →
    m.Chained → Faithful task.input rules layout m → Performs task rules layout place m m k far result

section

variable {task : Task σ τ} {input : Input} {rules : ρ → Expr ρ} {layout : Layout ρ}
  {place place' k target : InstId} {start start' m m₁ m' : Machine σ τ} {middle stop far far' : Nat}
  {result : Option Nat} {calls calls' : ρ → Nat → Prop} {keys keys' : List (MemoId × Nat)}

theorem Faithful.mono (faithful : Faithful input rules layout m)
    (find : ∀ pos point, m'.memo.find pos point none = m.memo.find pos point none)
    (furthest : m.maxPosition ≤ m'.maxPosition) : Faithful input rules layout m' := by
  intro pos point rule entry memoized found
  rw [find] at found
  obtain ⟨far, derives, within⟩ := faithful pos point rule entry memoized found
  exact ⟨far, derives, Nat.le_trans within furthest⟩

theorem Faithful.record {pos : Nat} {point : MemoId} {rule : ρ} {entry : MemoEntry τ}
    (faithful : Faithful input rules layout m) (memoized : layout.memoized point = some rule)
    (derives : Derives input rules (rules rule) pos (stopOf pos entry) far)
    (within : far ≤ m.maxPosition) :
    Faithful input rules layout { m with memo := m.memo.record pos point entry } := by
  intro pos' point' rule' entry' memoized' found
  rcases MemoTable.find_record found with ⟨rfl, rfl, rfl⟩ | before
  · rw [memoized] at memoized'
    cases memoized'
    exact ⟨far, derives, within⟩
  · exact faithful pos' point' rule' entry' memoized' before

/-! ### Misses -/

/-- What is missed on the way is an outcome of a rule that is called, and a table that keeps every
outcome learns it. -/
structure Tidy (layout : Layout ρ) (calls : ρ → Nat → Prop) (before after : MemoTable τ)
    (keys : List (MemoId × Nat)) : Prop where
  called : ∀ key ∈ keys, ∃ rule, layout.memoized key.1 = some rule ∧ calls rule key.2
  learns : before.isExact = true → MemoTable.Learns before after keys

def Traces (task : Task σ τ) (layout : Layout ρ) (calls : ρ → Nat → Prop) (place : InstId)
    (m : Machine σ τ) (target : InstId) (m' : Machine σ τ) : Prop :=
  ∃ keys, Machine.Course task place m keys target m' ∧ Tidy layout calls m.memo m'.memo keys

theorem Tidy.idle {before after : MemoTable τ} (same : after.store = before.store) :
    Tidy layout calls before after [] :=
  ⟨(fun _ member => by cases member), fun exact => .idle exact same⟩

theorem Tidy.trans {before between after : MemoTable τ}
    (first : Tidy layout calls before between keys)
    (second : Tidy layout calls between after keys') :
    Tidy layout calls before after (keys ++ keys') := by
  refine ⟨fun key member => ?_, fun exact => ?_⟩
  · rcases List.mem_append.mp member with early | late
    · exact first.called key early
    · exact second.called key late
  · have learns := first.learns exact
    exact learns.trans (second.learns learns.exact)

theorem Traces.quiet (course : Machine.Course task place m [] target m')
    (same : m'.memo.store = m.memo.store) : Traces task layout calls place m target m' :=
  ⟨[], course, .idle same⟩

theorem Traces.leads (leads : Leads task.program place target) (m : Machine σ τ) :
    Traces task layout calls place m target m :=
  .quiet (Machine.course_of_leads leads m) rfl

theorem Traces.trans (first : Traces task layout calls place start place' start')
    (rest : Traces task layout calls place' start' target m') :
    Traces task layout calls place start target m' := by
  obtain ⟨keys, course, tidy⟩ := first
  obtain ⟨keys', course', tidy'⟩ := rest
  exact ⟨keys ++ keys', course.trans course', tidy.trans tidy'⟩

theorem Traces.mono (traces : Traces task layout calls place m target m')
    (wider : ∀ rule entry, calls rule entry → calls' rule entry) :
    Traces task layout calls' place m target m' := by
  obtain ⟨keys, course, tidy⟩ := traces
  refine ⟨keys, course, fun key member => ?_, tidy.learns⟩
  obtain ⟨rule, memoized, call⟩ := tidy.called key member
  exact ⟨rule, memoized, wider rule key.2 call⟩

/-! ### Joining paths -/

def Tracks (task : Task σ τ) (rules : ρ → Expr ρ) (layout : Layout ρ) (calls : ρ → Nat → Prop)
    (place : InstId) (start m : Machine σ τ) (k : InstId) (far : Nat) : (result : Option Nat) → Prop
  | some stop =>
    ∃ m', Traces task layout calls place start k m' ∧ Arrives task.input rules layout m stop far m'
  | none =>
    ∃ target m', Traces task layout calls place start target m' ∧
      Falls task.input rules layout m far target m'

theorem Tracks.performs (tracks : Tracks task rules layout calls place start m k far result) :
    Performs task rules layout place start m k far result := by
  cases result with
  | some stop =>
      obtain ⟨m', ⟨keys, course, _⟩, arrives⟩ := tracks
      exact ⟨m', course.reaches, arrives⟩
  | none =>
      obtain ⟨target, m', ⟨keys, course, _⟩, falls⟩ := tracks
      exact ⟨target, m', course.reaches, falls⟩

theorem Tracks.mono (tracks : Tracks task rules layout calls place start m k far result)
    (wider : ∀ rule entry, calls rule entry → calls' rule entry) :
    Tracks task rules layout calls' place start m k far result := by
  cases result with
  | some stop =>
      obtain ⟨m', path, arrives⟩ := tracks
      exact ⟨m', path.mono wider, arrives⟩
  | none =>
      obtain ⟨target, m', path, falls⟩ := tracks
      exact ⟨target, m', path.mono wider, falls⟩

theorem Tracks.before (path : Traces task layout calls place start place' start')
    (rest : Tracks task rules layout calls place' start' m k far result) :
    Tracks task rules layout calls place start m k far result := by
  cases result with
  | some stop =>
      obtain ⟨m', path', arrives⟩ := rest
      exact ⟨m', path.trans path', arrives⟩
  | none =>
      obtain ⟨target, m', path', falls⟩ := rest
      exact ⟨target, m', path.trans path', falls⟩

/-- What follows a success is seen from the state before it. -/
theorem Tracks.after (arrives : Arrives task.input rules layout m middle far m₁)
    (rest : Tracks task rules layout calls place start m₁ k far' result) :
    Tracks task rules layout calls place start m k (max far far') result := by
  cases result with
  | some stop =>
      obtain ⟨m', path, arrives'⟩ := rest
      refine ⟨m', path, arrives'.pos, arrives.same.trans arrives'.same, ?_, arrives'.faithful⟩
      rw [arrives'.furthest, arrives.furthest, Nat.max_assoc]
  | none =>
      obtain ⟨target, m', path, falls⟩ := rest
      refine ⟨target, m', path, falls.unwinds.congr arrives.same, ?_, falls.faithful⟩
      rw [falls.furthest, arrives.furthest, arrives.same.toSameStack.landing, Nat.max_assoc]

theorem Arrives.refl (faithful : Faithful input rules layout m) :
    Arrives input rules layout m m.pos m.pos m := by
  refine ⟨rfl, .refl m, ?_, faithful⟩
  unfold Machine.maxPosition
  omega

theorem Arrives.reach (arrives : Arrives input rules layout m stop far m') :
    far ≤ m'.maxPosition := by
  rw [arrives.furthest]
  exact Nat.le_max_right _ _

/-- An instruction that fails behind a success. -/
theorem Arrives.fails {op : Op InstId} {next : InstId} {failing : Machine σ τ}
    (arrives : Arrives task.input rules layout m stop far m₁)
    (meets : Meets task.program place op next)
    (fails : ∀ place next, m₁.exec task place ⟨op, next⟩ = .fail failing)
    (chained : m.Chained) (same : Machine.SameUndo m₁ failing)
    (furthest : failing.maxPosition = m₁.maxPosition)
    (faithful : Faithful task.input rules layout failing) :
    ∃ target m', Machine.Course task place m₁ (Machine.missOf task.program op m₁).toList target m' ∧
      m'.memo = failing.memo ∧ Falls task.input rules layout m far target m' := by
  have undo := arrives.same.trans same
  obtain ⟨target, m', course, unwinds, furthest', memo⟩ :=
    Machine.course_of_fail meets fails (chained.same undo.toSameStack)
  refine ⟨target, m', course, memo, unwinds.congr undo, ?_,
    faithful.mono (fun _ _ => by rw [memo]) ?_⟩
  · rw [furthest', furthest, arrives.furthest, undo.toSameStack.landing]
  · rw [furthest']
    exact Nat.le_max_right _ _

/-- An instruction that fails behind a success and changes nothing that a failure would undo. -/
theorem Arrives.fails_quiet {op : Op InstId} {next : InstId}
    (arrives : Arrives task.input rules layout m stop far m₁)
    (meets : Meets task.program place op next)
    (silent : Machine.missOf task.program op m₁ = none)
    (fails : ∀ place next, m₁.exec task place ⟨op, next⟩ = .fail m₁) (chained : m.Chained) :
    Tracks task rules layout calls place m₁ m k far none := by
  obtain ⟨target, m', course, memo, falls⟩ :=
    arrives.fails meets fails chained (.refl m₁) rfl arrives.faithful
  rw [silent] at course
  exact ⟨target, m', .quiet course (by rw [memo]), falls⟩

/-! ### Alternatives -/

/-- Failing under a choice point leads to the state that pushed it. -/
theorem Falls.resumed {failure : InstId}
    (falls : Falls input rules layout (m.pushChoice failure) far target m') :
    target = failure ∧ Arrives input rules layout m m.pos far m' := by
  obtain ⟨same, pos, stack, log, bindings⟩ := Machine.Unwinds.fresh ⟨rfl, rfl⟩ falls.unwinds
  refine ⟨same, pos, ⟨stack, ?_, ?_⟩, ?_, falls.faithful⟩
  · rw [log]
    unfold TreeLog.abort
    exact if_pos rfl
  · rw [bindings]
    unfold Bindings.restore
    exact if_neg (Nat.lt_irrefl _)
  · have pushed : (m.pushChoice failure).maxPosition = m.maxPosition := rfl
    rw [falls.furthest, Machine.landing_pushChoice, pushed]
    unfold Machine.maxPosition
    omega

theorem Arrives.leave {failure : InstId}
    (arrives : Arrives input rules layout (m.pushChoice failure) stop far m₁) :
    Arrives input rules layout m stop far (m₁.withStack m) :=
  ⟨arrives.pos, ⟨⟨rfl, rfl⟩, arrives.same.log, arrives.same.bindings⟩, arrives.furthest,
    arrives.faithful⟩

theorem Arrives.pop {frame : Frame}
    (arrives : Arrives input rules layout (m.push frame) stop far m₁) :
    Arrives input rules layout m stop far (m₁.withStack m) :=
  ⟨arrives.pos, ⟨⟨rfl, rfl⟩, arrives.same.log, arrives.same.bindings⟩, arrives.furthest,
    arrives.faithful⟩

theorem Falls.pop {frame : Frame} (chained : m.Chained)
    (falls : Falls input rules layout (m.push frame) far target m') :
    Falls input rules layout m far target m' := by
  refine ⟨falls.unwinds.below chained, ?_, falls.faithful⟩
  rw [falls.furthest, Machine.landing_push chained]
  rfl

end

/-! ### The constructs -/

section

variable (task : Task σ τ) (rules : ρ → Expr ρ) (layout : Layout ρ)

def Evaluates (e : Expr ρ) (pos : Nat) (result : Option Nat) (far : Nat) : Prop :=
  ∀ place k (m : Machine σ τ), ExprCode task.program layout e place k → m.pos = pos →
    m.Chained → Faithful task.input rules layout m →
    Tracks task rules layout (Calls task.input rules e pos) place m m k far result

/-- A repetition does what its outcome says, from the entry of its body on, seen from the state that
the present iteration began with. -/
def Loops (body : Expr ρ) (pos : Nat) (result : Option Nat) (far : Nat) : Prop :=
  ∀ top again stop k (m : Machine σ τ), ExprCode task.program layout body top again →
    Meets task.program again (.control .step) top → Leads task.program stop k → m.pos = pos →
    m.Chained → Faithful task.input rules layout m →
    Tracks task rules layout (Calls task.input rules (.star body) pos) top (m.pushChoice stop) m k
      far result

end

section

variable {task : Task σ τ} {rules : ρ → Expr ρ} {layout : Layout ρ}
  {place k failure : InstId} {m : Machine σ τ} {pos middle stop far far' : Nat}
  {result : Option Nat} {first second body : Expr ρ}

theorem Evaluates.under (evaluates : Evaluates task rules layout body pos (some stop) far)
    {done : InstId} (code : ExprCode task.program layout body place done) (at_pos : m.pos = pos)
    (chained : m.Chained) (faithful : Faithful task.input rules layout m) (failure : InstId) :
    ∃ m₁, Traces task layout (Calls task.input rules body pos) place (m.pushChoice failure) done
        m₁ ∧
      Arrives task.input rules layout (m.pushChoice failure) stop far m₁ :=
  evaluates place done (m.pushChoice failure) code at_pos (chained.pushChoice failure) faithful

theorem Evaluates.falls (evaluates : Evaluates task rules layout body pos none far)
    {done : InstId} (code : ExprCode task.program layout body place done) (at_pos : m.pos = pos)
    (chained : m.Chained) (faithful : Faithful task.input rules layout m) (failure : InstId) :
    ∃ m', Traces task layout (Calls task.input rules body pos) place (m.pushChoice failure) failure
        m' ∧
      Arrives task.input rules layout m pos far m' := by
  obtain ⟨target, m', path, falls⟩ :=
    evaluates place done (m.pushChoice failure) code at_pos (chained.pushChoice failure) faithful
  obtain ⟨rfl, arrives⟩ := falls.resumed
  rw [at_pos] at arrives
  exact ⟨m', path, arrives⟩

theorem Traces.alt {calls : ρ → Nat → Prop}
    (meets : Meets task.program place (.control (.alt failure)) k) (m : Machine σ τ) :
    Traces task layout calls place m k (m.pushChoice failure) :=
  .quiet (Machine.course_alt meets m) rfl

theorem Traces.succ {calls : ρ → Nat → Prop} {m₁ : Machine σ τ}
    (meets : Meets task.program place (.control .succ) k)
    (under : Machine.SameStack (m.pushChoice failure) m₁) :
    Traces task layout calls place m₁ k (m₁.withStack m) :=
  .quiet (Machine.course_succ meets under) rfl

theorem evaluates_test {pattern : Pattern ByteSet Bytes} {length : Nat}
    (found : pattern.length? task.input pos = some length) :
    Evaluates task rules layout (.test pattern) pos (some (pos + length)) (pos + length) := by
  intro place k m code at_pos _ faithful
  obtain ⟨operand, resolved, meets⟩ := code
  subst at_pos
  have course : Machine.Course task place m [] k (m.advance length) :=
    Machine.course_next meets fun place next => by
      simp only [Machine.exec, resolved, Machine.test, found]
  refine ⟨m.advance length, .quiet course rfl, rfl, ⟨⟨rfl, rfl⟩, rfl, rfl⟩, ?_,
    faithful.mono (fun _ _ => rfl) ?_⟩
  · change max m.head (m.pos + length) = max (max m.head m.pos) (m.pos + length)
    omega
  · change max m.head m.pos ≤ max m.head (m.pos + length)
    omega

theorem evaluates_testFail {pattern : Pattern ByteSet Bytes}
    (missing : pattern.length? task.input pos = none) :
    Evaluates task rules layout (.test pattern) pos none pos := by
  intro place k m code at_pos chained faithful
  obtain ⟨operand, resolved, meets⟩ := code
  subst at_pos
  refine (Arrives.refl faithful).fails_quiet meets rfl (fun place next => ?_) chained
  simp only [Machine.exec, resolved, Machine.test, missing]

theorem evaluates_seq (succeeds : Derives task.input rules first pos (some middle) far)
    (ih : Evaluates task rules layout first pos (some middle) far)
    (ih' : Evaluates task rules layout second middle result far') :
    Evaluates task rules layout (.seq first second) pos result (max far far') := by
  intro place k m code at_pos chained faithful
  obtain ⟨between, code, code'⟩ := code
  obtain ⟨m₁, path, arrives⟩ := ih place between m code at_pos chained faithful
  refine Tracks.before (path.mono fun _ _ => .seqFirst) (Tracks.after arrives ?_)
  have rest := ih' between k m₁ code' arrives.pos (chained.same arrives.same.toSameStack)
    arrives.faithful
  exact rest.mono fun _ _ => .seqSecond succeeds

theorem evaluates_seqFail (ih : Evaluates task rules layout first pos none far) :
    Evaluates task rules layout (.seq first second) pos none far := by
  intro place k m code at_pos chained faithful
  obtain ⟨between, code, _⟩ := code
  have fails := ih place between m code at_pos chained faithful
  exact fails.mono fun _ _ => .seqFirst

theorem evaluates_choiceFirst (ih : Evaluates task rules layout first pos (some stop) far) :
    Evaluates task rules layout (.choice first second) pos (some stop) far := by
  intro place k m code at_pos chained faithful
  obtain ⟨other, entry, done, alt, code, succ, _⟩ := code
  obtain ⟨m₁, path, arrives⟩ := ih.under code at_pos chained faithful other
  have left := arrives.same.toSameStack
  exact ⟨m₁.withStack m,
    (Traces.alt alt m).trans ((path.mono fun _ _ => .choiceFirst).trans (.succ succ left)),
    arrives.leave⟩

theorem evaluates_choiceSecond (fails : Derives task.input rules first pos none far)
    (ih : Evaluates task rules layout first pos none far)
    (ih' : Evaluates task rules layout second pos result far') :
    Evaluates task rules layout (.choice first second) pos result (max far far') := by
  intro place k m code at_pos chained faithful
  obtain ⟨other, entry, done, alt, code, _, code'⟩ := code
  obtain ⟨m₁, path, arrives⟩ := ih.falls code at_pos chained faithful other
  refine Tracks.before ((Traces.alt alt m).trans (path.mono fun _ _ => .choiceFirst))
    (Tracks.after arrives ?_)
  have rest := ih' other k m₁ code' arrives.pos (chained.same arrives.same.toSameStack)
    arrives.faithful
  exact rest.mono fun _ _ => .choiceSecond fails

theorem evaluates_option (ih : Evaluates task rules layout body pos (some stop) far) :
    Evaluates task rules layout (.option body) pos (some stop) far := by
  intro place k m code at_pos chained faithful
  obtain ⟨none, entry, done, alt, code, succ, _⟩ := code
  obtain ⟨m₁, path, arrives⟩ := ih.under code at_pos chained faithful none
  have left := arrives.same.toSameStack
  exact ⟨m₁.withStack m,
    (Traces.alt alt m).trans ((path.mono fun _ _ => .option).trans (.succ succ left)),
    arrives.leave⟩

theorem evaluates_optionNone (ih : Evaluates task rules layout body pos none far) :
    Evaluates task rules layout (.option body) pos (some pos) far := by
  intro place k m code at_pos chained faithful
  obtain ⟨none, entry, done, alt, code, _, leads⟩ := code
  obtain ⟨m₁, path, arrives⟩ := ih.falls code at_pos chained faithful none
  exact ⟨m₁, (Traces.alt alt m).trans ((path.mono fun _ _ => .option).trans (.leads leads m₁)),
    arrives⟩

theorem evaluates_absent (ih : Evaluates task rules layout body pos none far) :
    Evaluates task rules layout (.absent body) pos (some pos) far := by
  intro place k m code at_pos chained faithful
  obtain ⟨absent, entry, done, stuck, next, alt, code, _, _, leads⟩ := code
  obtain ⟨m₁, path, arrives⟩ := ih.falls code at_pos chained faithful absent
  exact ⟨m₁, (Traces.alt alt m).trans ((path.mono fun _ _ => .absent).trans (.leads leads m₁)),
    arrives⟩

theorem evaluates_absentFail (ih : Evaluates task rules layout body pos (some stop) far) :
    Evaluates task rules layout (.absent body) pos none far := by
  intro place k m code at_pos chained faithful
  obtain ⟨absent, entry, done, stuck, next, alt, code, succ, fail, _⟩ := code
  obtain ⟨m₁, path, arrives⟩ := ih.under code at_pos chained faithful absent
  have left := arrives.same.toSameStack
  refine Tracks.before
    ((Traces.alt alt m).trans ((path.mono fun _ _ => .absent).trans (.succ succ left))) ?_
  exact arrives.leave.fails_quiet fail rfl (fun _ _ => rfl) chained

theorem evaluates_ahead (bound : pos ≤ far)
    (ih : Evaluates task rules layout body pos (some stop) far) :
    Evaluates task rules layout (.ahead body) pos (some pos) far := by
  intro place k m code at_pos chained faithful
  obtain ⟨entry, done, save, code, back⟩ := code
  subst at_pos
  let saved := m.push (.position m.pos)
  have save : Machine.Course task place m [] entry saved := Machine.course_next save fun _ _ => rfl
  obtain ⟨m₁, path, arrives⟩ := ih entry done saved code rfl (chained.push rfl) faithful
  have returned := Machine.course_back chained back arrives.same.toSameStack
  have popped := arrives.pop
  refine ⟨(m₁.withStack m).rollback m.pos,
    (Traces.quiet save rfl).trans ((path.mono fun _ _ => .ahead).trans (.quiet returned rfl)), rfl,
    ⟨⟨rfl, rfl⟩, popped.same.log, popped.same.bindings⟩, ?_,
    popped.faithful.mono (fun _ _ => rfl) (Nat.le_max_left _ _)⟩
  have furthest := popped.furthest
  change max (m₁.withStack m).maxPosition m.pos = max m.maxPosition far
  omega

theorem evaluates_aheadFail (ih : Evaluates task rules layout body pos none far) :
    Evaluates task rules layout (.ahead body) pos none far := by
  intro place k m code at_pos chained faithful
  obtain ⟨entry, done, save, code, _⟩ := code
  let saved := m.push (.position m.pos)
  have save : Machine.Course task place m [] entry saved := Machine.course_next save fun _ _ => rfl
  obtain ⟨target, m', path, falls⟩ := ih entry done saved code at_pos (chained.push rfl) faithful
  exact ⟨target, m', (Traces.quiet save rfl).trans (path.mono fun _ _ => .ahead), falls.pop chained⟩

/-! ### Repetitions -/

theorem evaluates_star (loops : Loops task rules layout body pos result far) :
    Evaluates task rules layout (.star body) pos result far := by
  intro place k m code at_pos chained faithful
  obtain ⟨stop, top, again, alt, code, step, leads⟩ := code
  exact Tracks.before (Traces.alt alt m)
    (loops top again stop k m code step leads at_pos chained faithful)

theorem loops_fail (ih : Evaluates task rules layout body pos none far) :
    Loops task rules layout body pos (some pos) far := by
  intro top again stop k m code _ leads at_pos chained faithful
  obtain ⟨m₁, path, arrives⟩ := ih.falls code at_pos chained faithful stop
  exact ⟨m₁, (path.mono fun _ _ => .star).trans (.leads leads m₁), arrives⟩

theorem loops_idle (ih : Evaluates task rules layout body pos (some pos) far) :
    Loops task rules layout body pos (some pos) far := by
  intro top again stop k m code step leads at_pos chained faithful
  obtain ⟨m₁, path, arrives⟩ := ih.under code at_pos chained faithful stop
  have idle : m₁.pos = m.pos := arrives.pos.trans at_pos.symm
  have under := arrives.same.toSameStack
  have stuck : Tracks task rules layout (Calls task.input rules (.star body) pos) again m₁
      (m.pushChoice stop) k far none :=
    arrives.fails_quiet step rfl (Machine.step_fails under idle) (chained.pushChoice stop)
  obtain ⟨target, m', path', falls⟩ := stuck
  obtain ⟨rfl, resumed⟩ := falls.resumed
  rw [at_pos] at resumed
  exact ⟨m', (path.mono fun _ _ => .star).trans (path'.trans (.leads leads m')), resumed⟩

/-- A moving iteration leaves the choice point as if the repetition began anew. -/
theorem loops_more (succeeds : Derives task.input rules body pos (some middle) far)
    (ih : Evaluates task rules layout body pos (some middle) far)
    (moves : middle ≠ pos) (ih' : Loops task rules layout body middle result far') :
    Loops task rules layout body pos result (max far far') := by
  intro top again stop k m code step leads at_pos chained faithful
  obtain ⟨m₁, path, arrives⟩ := ih.under code at_pos chained faithful stop
  have moved : m₁.pos ≠ m.pos := by
    rw [arrives.pos, at_pos]
    exact moves
  have repeated := Machine.course_step step arrives.same.toSameStack moved
  refine Tracks.before ((path.mono fun _ _ => .star).trans (.quiet repeated rfl))
    (Tracks.after arrives.leave ?_)
  have rest := ih' top again stop k (m₁.withStack m) code step leads arrives.pos
    (chained.same ⟨rfl, rfl⟩) arrives.faithful
  exact rest.mono fun _ _ => .starMore succeeds moves

end

end Packrat.Peg
