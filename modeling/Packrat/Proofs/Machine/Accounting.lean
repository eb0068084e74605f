/-
The statistics of a run, against the instructions that the run executed. The table counts what it
answers and what is recorded in it, each memo point counts its own lookups, and the run counts its
failures; nothing passes from one of these counters to another one before the run ends. That they
agree is an invariant of the instructions executed so far: each instruction enters what it did into
every counter that is concerned, and no other instruction touches it.
-/

import Packrat.Proofs.Machine.Counting
import Packrat.Proofs.Machine.Course
import Packrat.Proofs.Machine.Furthest
import Packrat.Proofs.Machine.Provenance
import Packrat.Proofs.Memo.History
import Packrat.Proofs.Peg.Transparency

namespace Packrat

/-! ### Counters -/

def PointStats.count {τ : Type} (stats : PointStats) : Option (MemoEntry τ) → PointStats
  | none => stats.miss
  | some entry => if entry.failed then stats.failHit else stats.hit entry.consumed

def hitLength? {τ : Type} : Option (MemoEntry τ) → Option Nat
  | none => none
  | some entry => if entry.failed then none else some entry.consumed

namespace PointStats

variable {τ : Type} (stats : PointStats) {entry : MemoEntry τ}

theorem count_failed (failed : entry.failed = true) : stats.count (some entry) = stats.failHit := by
  simp only [count, failed, if_true]

theorem count_matched (matched : entry.failed = false) :
    stats.count (some entry) = stats.hit entry.consumed := by
  simp only [count, matched, Bool.false_eq_true, if_false]

theorem lookups_count (found : Option (MemoEntry τ)) :
    (stats.count found).lookups = stats.lookups + 1 := by
  cases found with
  | none => rfl
  | some entry =>
      cases failed : entry.failed with
      | true =>
          rw [stats.count_failed failed]
          simp only [failHit, lookups]
          omega
      | false =>
          rw [stats.count_matched failed]
          simp only [hit, lookups]
          omega

def answered (stats : PointStats) : Nat := stats.hits + stats.failHits

theorem answered_count (found : Option (MemoEntry τ)) :
    (stats.count found).answered = stats.answered + if found.isSome then 1 else 0 := by
  cases found with
  | none => rfl
  | some entry =>
      cases failed : entry.failed with
      | true =>
          rw [stats.count_failed failed]
          rfl
      | false =>
          rw [stats.count_matched failed]
          exact Nat.add_right_comm stats.hits 1 stats.failHits

/-- The counters of a memo point say how often it was hit, and how far by. -/
structure Measures (stats : PointStats) (distances : List Nat) : Prop where
  hits : stats.hits = distances.length
  hitLength : stats.hitLength = distances.sum
  maxLength : stats.maxLength = distances.foldl max 0

variable {stats}

theorem Measures.count {distances : List Nat} (measures : stats.Measures distances)
    (found : Option (MemoEntry τ)) :
    (stats.count found).Measures (distances ++ (hitLength? found).toList) := by
  obtain ⟨hits, hitLength, maxLength⟩ := measures
  cases found with
  | none =>
      rw [hitLength?, Option.toList_none, List.append_nil]
      exact ⟨hits, hitLength, maxLength⟩
  | some entry =>
      cases failed : entry.failed with
      | true =>
          rw [stats.count_failed failed, hitLength?, if_pos failed, Option.toList_none,
            List.append_nil]
          exact ⟨hits, hitLength, maxLength⟩
      | false =>
          rw [stats.count_matched failed, hitLength?,
            if_neg (by rw [failed]; exact Bool.noConfusion), Option.toList_some]
          constructor
          · rw [List.length_append, ← hits]
            rfl
          · rw [List.sum_append, ← hitLength]
            rfl
          · rw [List.foldl_append, ← maxLength]
            rfl

end PointStats

namespace RunStats

def total (stats : RunStats) (counter : PointStats → Nat) : Nat :=
  (stats.points.toList.map counter).sum

end RunStats

theorem sum_modify {α : Type} (counter : α → Nat) (change : α → α) (more : Nat)
    (grows : ∀ entry, counter (change entry) = counter entry + more) {entries : List α}
    {index : Nat} (within : index < entries.length) :
    ((entries.modify index change).map counter).sum = (entries.map counter).sum + more := by
  induction entries generalizing index with
  | nil => cases within
  | cons entry rest ih =>
      cases index with
      | zero =>
          rw [List.modify_zero_cons, List.map_cons, List.map_cons, List.sum_cons, List.sum_cons,
            grows]
          omega
      | succ index =>
          rw [List.modify_succ_cons, List.map_cons, List.map_cons, List.sum_cons, List.sum_cons,
            ih (Nat.lt_of_succ_lt_succ within)]
          omega

/-! ### The table -/

namespace MemoTable

variable {τ : Type} (table : MemoTable τ) (pos : Nat) (point : MemoId)

theorem isDisabled_record (entry : MemoEntry τ) :
    (table.record pos point entry).isDisabled = table.isDisabled := by
  obtain ⟨store, stored, used, invalidated⟩ := table
  cases store <;> rfl

theorem stored_record (entry : MemoEntry τ) :
    (table.record pos point entry).stored =
      table.stored + if table.isDisabled then 0 else 1 := by
  obtain ⟨store, stored, used, invalidated⟩ := table
  cases store <;> rfl

theorem used_record (entry : MemoEntry τ) :
    (table.record pos point entry).used = table.used := by
  obtain ⟨store, stored, used, invalidated⟩ := table
  cases store <;> rfl

end MemoTable

namespace Machine

variable {σ τ : Type} {task : Task σ τ} {op : Op InstId} {m m' : Machine σ τ}

/-! ### Lookups -/

def answerOf (program : Program) (op : Op InstId) (m : Machine σ τ) :
    Option (MemoId × Option (MemoEntry τ)) :=
  op.lookedUp?.bind fun id =>
    (program.memoPoint? id).map fun info =>
      (id, (m.memo.find m.pos id (m.memoState info)).1)

/-- What a lookup enters into the counters of the table and of the memo points; without a lookup
they stay as they are. -/
structure Looked (answer : Option (MemoId × Option (MemoEntry τ))) (m m' : Machine σ τ) : Prop where
  points : m'.stats.points =
    match answer with
    | none => m.stats.points
    | some (id, found) => m.stats.points.modify id.index (PointStats.count · found)
  used : m'.memo.used =
    m.memo.used + answer.elim 0 fun known => if known.2.isSome then 1 else 0

theorem Looked.size {answer : Option (MemoId × Option (MemoEntry τ))}
    (looked : Looked answer m m') :
    m'.stats.points.size = m.stats.points.size := by
  rw [looked.points]
  cases answer with
  | none => rfl
  | some known => exact Array.size_modify

theorem Update.unlooked (update : Update task op m m') (silent : op.lookedUp? = none) :
    m'.stats.points = m.stats.points ∧ m'.memo.used = m.memo.used := by
  refine ⟨update.points silent, ?_⟩
  cases update with
  | look id state looks => rw [silent] at looks; cases looks
  | store | storeFailure => exact MemoTable.used_record _ _ _ _
  | save | back | shift | call | drop | count | alt | renew | cut | consume | append | link
  | checkpoint | emit | enter | leave | define | mask | tick | skip => rfl

theorem lookup_looked (m : Machine σ τ) (next skip : InstId) (id : MemoId) (info : MemoPoint)
    (label : Option Symbol) :
    Looked (some (id, (m.memo.find m.pos id (m.memoState info)).1)) m
      (after (m.lookup next skip id info label)) := by
  cases found : (m.memo.find m.pos id (m.memoState info)).1 with
  | none =>
      have answer : (m.memo.lookup m.pos id (m.memoState info)).1 = none := found
      have used : (m.memo.lookup m.pos id (m.memoState info)).2.used = m.memo.used := by
        simp only [MemoTable.lookup, found]
        rfl
      simp only [Machine.lookup, answer]
      exact ⟨rfl, used⟩
  | some entry =>
      have answer : (m.memo.lookup m.pos id (m.memoState info)).1 = some entry := found
      have used : (m.memo.lookup m.pos id (m.memoState info)).2.used = m.memo.used + 1 := by
        simp only [MemoTable.lookup, found]
        rfl
      cases failed : entry.failed with
      | true =>
          have counted : (PointStats.count · (some entry)) = PointStats.failHit :=
            funext fun stats => stats.count_failed failed
          simp only [Machine.lookup, answer, failed, if_true]
          exact ⟨by simp only [counted]; rfl, used⟩
      | false =>
          have counted : (PointStats.count · (some entry)) = (PointStats.hit · entry.consumed) :=
            funext fun stats => stats.count_matched failed
          simp only [Machine.lookup, answer, failed, Bool.false_eq_true, if_false]
          cases label <;> exact ⟨by simp only [counted]; rfl, used⟩

theorem lookup_hit (next skip : InstId) {id : MemoId} {info : MemoPoint} (label : Option Symbol)
    {entry : MemoEntry τ} (found : (m.memo.find m.pos id (m.memoState info)).1 = some entry)
    (matched : entry.failed = false) :
    ∃ m₁, m.lookup next skip id info label = .goto skip m₁ ∧ m₁.pos = m.pos + entry.consumed := by
  have answer : (m.memo.lookup m.pos id (m.memoState info)).1 = some entry := found
  simp only [Machine.lookup, answer, matched, Bool.false_eq_true, if_false]
  cases label <;> exact ⟨_, rfl, rfl⟩

theorem exec_of_looks (task : Task σ τ) {id : MemoId} (looks : op.lookedUp? = some id)
    (place next : InstId) (m : Machine σ τ) :
    ∃ skip label, m.exec task place ⟨op, next⟩ =
      match task.program.memoPoint? id with
      | none => .halt .trap m
      | some info => m.lookup next skip id info label := by
  cases op with
  | memo op =>
      cases op with
      | lookup other skip =>
          cases looks
          exact ⟨skip, none, rfl⟩
      | treeLookup other label skip =>
          cases looks
          exact ⟨skip, some label, rfl⟩
      | store | treeStore | storeFailure => cases looks
  | control | test | dispatch | tree | bindings | count => cases looks

/-- Every instruction enters into the counters of lookups what it looked up. -/
theorem exec_looked (task : Task σ τ) (place : InstId) (inst : Inst InstId) (m : Machine σ τ) :
    Looked (answerOf task.program inst.op m) m (after (m.exec task place inst)) := by
  obtain ⟨op, next⟩ := inst
  cases looks : op.lookedUp? with
  | none =>
      have silent : answerOf task.program op m = none := by
        rw [answerOf, looks, Option.bind_none]
      have kept := updates_keep
        (P := fun m' : Machine σ τ =>
          m'.stats.points = m.stats.points ∧ m'.memo.used = m.memo.used)
        (fun _ _ same update =>
          ⟨(update.unlooked looks).1.trans same.1, (update.unlooked looks).2.trans same.2⟩)
        (exec_leaves task place ⟨op, next⟩ m).updates ⟨rfl, rfl⟩
      simp only [silent]
      exact ⟨kept.1, kept.2⟩
  | some id =>
      obtain ⟨skip, label, runs⟩ := exec_of_looks task looks place next m
      rw [runs]
      simp only [answerOf, looks, Option.bind_some]
      cases task.program.memoPoint? id with
      | none => exact ⟨rfl, rfl⟩
      | some info => exact lookup_looked m next skip id info label

theorem answerOf_within {program : Program} {id : MemoId} {found : Option (MemoEntry τ)}
    (answer : answerOf program op m = some (id, found)) :
    id.index < program.memoPoints.size := by
  obtain ⟨id', looks, answer⟩ := Option.bind_eq_some_iff.mp answer
  obtain ⟨info, known, same⟩ := Option.map_eq_some_iff.mp answer
  cases same
  exact (Array.getElem?_eq_some_iff.mp known).1

/-- A hit moves the cursor on behind what the rule consumed. -/
theorem exec_hit (place next : InstId) {id : MemoId} {entry : MemoEntry τ}
    (answer : answerOf task.program op m = some (id, some entry)) (matched : entry.failed = false) :
    ∃ target m₁, m.exec task place ⟨op, next⟩ = .goto target m₁ ∧
      m₁.pos = m.pos + entry.consumed := by
  obtain ⟨id', looks, answer⟩ := Option.bind_eq_some_iff.mp answer
  obtain ⟨info, known, same⟩ := Option.map_eq_some_iff.mp answer
  obtain ⟨rfl, found⟩ := Prod.mk.inj same
  obtain ⟨skip, label, runs⟩ := exec_of_looks task looks place next m
  rw [known] at runs
  obtain ⟨m₁, goes, moved⟩ := lookup_hit next skip label found matched
  exact ⟨skip, m₁, runs.trans goes, moved⟩

/-- A counter that every lookup of a memo point raises, over all memo points. -/
theorem Looked.total {answer : Option (MemoId × Option (MemoEntry τ))} (looked : Looked answer m m')
    (within : ∀ id found, answer = some (id, found) → id.index < m.stats.points.size)
    {counter : PointStats → Nat} {more : Option (MemoEntry τ) → Nat}
    (grows : ∀ (point : PointStats) found,
      counter (point.count found) = counter point + more found) :
    m'.stats.total counter = m.stats.total counter + answer.elim 0 fun known => more known.2 := by
  unfold RunStats.total
  rw [looked.points]
  cases answer with
  | none => rfl
  | some known =>
      obtain ⟨id, found⟩ := known
      simp only [Array.toList_modify, Option.elim_some]
      exact sum_modify counter _ (more found) (fun point => grows point found) (within id found rfl)

/-! ### Recording -/

def Sound : Transition σ τ → Prop
  | .goto _ _ => True
  | .halt reason _ => ∃ matched, reason = .exit matched

theorem not_sound_fault {fault : Fault} : ¬ Sound (.halt (.fault fault) m) := by
  rintro ⟨matched, same⟩
  cases same

theorem not_sound_trap : ¬ Sound (.halt .trap m) := by
  rintro ⟨matched, same⟩
  cases same

theorem Update.isDisabled (update : Update task op m m') :
    m'.memo.isDisabled = m.memo.isDisabled := by
  cases update with
  | store | storeFailure => exact MemoTable.isDisabled_record _ _ _ _
  | save | back | shift | call | drop | count | alt | renew | cut | consume | append | link
  | checkpoint | emit | enter | leave | define | mask | look | tick | skip => rfl

theorem Update.stored (update : Update task op m m') (plain : op.records = false) :
    m'.memo.stored = m.memo.stored := by
  cases update with
  | store id info index choice result stores =>
      rcases stores with ⟨same, _⟩ | ⟨same, _⟩ <;> rw [same] at plain <;> cases plain
  | storeFailure id info same => rw [same] at plain; cases plain
  | save | back | shift | call | drop | count | alt | renew | cut | consume | append | link
  | checkpoint | emit | enter | leave | define | mask | look | tick | skip => rfl

theorem storeMatch_stored {site : Site} {place next : InstId} {id : MemoId} {info : MemoPoint}
    {result : Option τ} (sound : Sound (settle place (m.storeMatch site next id info result))) :
    (after (m.storeMatch site next id info result)).memo.stored =
      m.memo.stored + if m.memo.isDisabled then 0 else 1 := by
  unfold storeMatch at sound ⊢
  cases innermost : m.innermost site with
  | error cause =>
      rw [innermost] at sound
      exact absurd sound not_sound_fault
  | ok answer => exact MemoTable.stored_record _ _ _ _

/-- Every instruction that records an outcome enters it into the table, if there is one. -/
theorem exec_stored {place : InstId} {inst : Inst InstId}
    (sound : Sound (settle place (m.exec task place inst))) :
    (after (m.exec task place inst)).memo.stored =
      m.memo.stored + if m.memo.isDisabled then 0 else if inst.op.records then 1 else 0 := by
  obtain ⟨op, next⟩ := inst
  cases records : op.records with
  | false =>
      have kept := updates_keep (P := fun m' : Machine σ τ => m'.memo.stored = m.memo.stored)
        (fun _ _ same update => (update.stored records).trans same)
        (exec_leaves task place ⟨op, next⟩ m).updates rfl
      rw [kept]
      split <;> rfl
  | true =>
      cases op with
      | memo op =>
          cases op with
          | store id | treeStore id | storeFailure id =>
              simp only [exec, memoStep, Op.memoId?] at sound ⊢
              cases known : task.program.memoPoint? id with
              | none =>
                  rw [known] at sound
                  exact absurd sound not_sound_trap
              | some info =>
                  rw [known] at sound
                  first
                  | exact storeMatch_stored sound
                  | exact MemoTable.stored_record _ _ _ _
          | lookup | treeLookup => cases records
      | control | test | dispatch | tree | bindings | count => cases records

/-! ### Failing -/

structure SameFailures (stats stats' : RunStats) : Prop where
  failures : stats'.failures = stats.failures
  backtracks : stats'.backtracks = stats.backtracks
  backtrackLength : stats'.backtrackLength = stats.backtrackLength
  longestBacktrack : stats'.longestBacktrack = stats.longestBacktrack

theorem exec_sameFailures (task : Task σ τ) (place : InstId) (inst : Inst InstId)
    (m : Machine σ τ) :
    SameFailures m.stats (after (m.exec task place inst)).stats := by
  refine updates_keep (P := fun m' : Machine σ τ => SameFailures m.stats m'.stats) ?_
    (exec_leaves task place inst m).updates ⟨rfl, rfl, rfl, rfl⟩
  intro m₁ m₂ same update
  obtain ⟨failures, backtracks, length, longest⟩ := same
  cases update <;> exact ⟨failures, backtracks, length, longest⟩

theorem Failure.stats (failure : Failure m m') :
    m'.stats = m.stats.backtrack m'.pos m.pos m.head := by
  cases failure <;> rfl

theorem failure_of_sound {place : InstId} (sound : Sound (m.fail place)) :
    Failure m (reached (m.fail place)) := by
  cases caught : m.catchIndex with
  | none =>
      have idle : m.fail place =
          .goto .exitFail { m with stats := m.stats.backtrack m.pos m.pos m.head } := by
        simp only [Machine.fail, caught]
      rw [idle]
      exact .idle
  | some index =>
      simp only [Machine.fail, caught] at sound ⊢
      cases innermost : m.innermost ⟨place, .control .fail⟩ with
      | error cause =>
          rw [innermost] at sound
          exact absurd sound not_sound_fault
      | ok answer =>
          obtain ⟨caught', found⟩ := innermost_ok innermost
          exact .resume answer.1 answer.2 caught' found

end Machine

/-- The counters of a failure, by the way that the cursor is taken back. -/
theorem RunStats.backtrack_counts (stats : RunStats) (saved current head : Nat) :
    let stats' := stats.backtrack saved current head
    stats'.failures = stats.failures + 1 ∧
      stats'.backtracks = stats.backtracks + (if 0 < current - saved then 1 else 0) ∧
      stats'.backtrackLength = stats.backtrackLength + (current - saved) ∧
      stats'.longestBacktrack ≤ max stats.longestBacktrack (max head current) := by
  unfold RunStats.backtrack
  by_cases behind : saved < current
  · rw [if_pos behind, if_pos (Nat.sub_pos_of_lt behind)]
    refine ⟨rfl, rfl, rfl, ?_⟩
    change max stats.longestBacktrack (max head current - saved) ≤ _
    omega
  · rw [if_neg behind, if_neg (fun positive => behind (Nat.lt_of_sub_pos positive)),
      Nat.sub_eq_zero_of_le (Nat.le_of_not_lt behind)]
    exact ⟨rfl, rfl, rfl, Nat.le_max_left _ _⟩

def Effect.isFailure {σ τ : Type} : Effect σ τ → Bool
  | .fail _ => true
  | _ => false

namespace Machine

variable {σ τ : Type} {task : Task σ τ} {op : Op InstId} {m m' : Machine σ τ}

/-! ### Instructions that were executed -/

namespace Config

def op? (program : Program) (config : Config σ τ) : Option (Op InstId) :=
  (program.inst? config.place).map Inst.op

def looksUp (program : Program) (config : Config σ τ) : Bool :=
  (config.op? program).any fun op => op.lookedUp?.isSome

def records (program : Program) (config : Config σ τ) : Bool :=
  (config.op? program).any Op.records

def fails (task : Task σ τ) (config : Config σ τ) : Bool :=
  (task.program.inst? config.place).any fun inst =>
    (config.machine.exec task config.place inst).isFailure

def next (task : Task σ τ) (config : Config σ τ) : Machine σ τ :=
  reached (config.machine.step task config.place)

def givesBack (task : Task σ τ) (config : Config σ τ) : Nat :=
  if config.fails task then config.machine.pos - (config.next task).pos else 0

def hit? (task : Task σ τ) (index : Nat) (config : Config σ τ) : Option Nat :=
  match (config.op? task.program).bind fun op => answerOf task.program op config.machine with
  | some (id, some entry) =>
    if id.index = index ∧ entry.failed = false then
      some ((config.next task).pos - config.machine.pos)
    else none
  | _ => none

end Config

/-- The counters of a run say what the instructions did that it executed. -/
structure Accounts (task : Task σ τ) (disabled : Bool) (done : List (Config σ τ))
    (stats : RunStats) (furthest : Nat) : Prop where
  size : stats.points.size = task.program.memoPoints.size
  used : stats.memoUsed = stats.total PointStats.answered
  lookups : stats.total PointStats.lookups = done.countP (Config.looksUp task.program)
  stored : stats.memoStored = if disabled then 0 else done.countP (Config.records task.program)
  points : ∀ index (point : PointStats), stats.points[index]? = some point →
    point.Measures (done.filterMap (Config.hit? task index))
  failures : stats.failures = done.countP (Config.fails task)
  backtracks : stats.backtracks = done.countP fun config => 0 < config.givesBack task
  backtrackLength : stats.backtrackLength = (done.map (Config.givesBack task)).sum
  longest : stats.longestBacktrack ≤ furthest

/-! ### One instruction -/

section Step

variable {place : InstId} {inst : Inst InstId}

/-- Only a lookup of a memo point that is not there has no counters to enter into. -/
theorem answerOf_isSome (sound : Sound (settle place (m.exec task place inst))) :
    (answerOf task.program inst.op m).isSome = inst.op.lookedUp?.isSome := by
  obtain ⟨op, next⟩ := inst
  cases looks : op.lookedUp? with
  | none =>
      rw [answerOf, looks]
      rfl
  | some id =>
      obtain ⟨skip, label, runs⟩ := exec_of_looks task looks place next m
      cases known : task.program.memoPoint? id with
      | none =>
          rw [runs, known] at sound
          exact absurd sound not_sound_trap
      | some info =>
          simp only [answerOf, looks, Option.bind_some, known]
          rfl

variable (found : task.program.inst? place = some inst)

include found

theorem next_eq :
    Config.next task ⟨place, m⟩ = reached (settle place (m.exec task place inst)) := by
  rw [Config.next, step_eq found]

theorem hit?_eq (index : Nat) :
    Config.hit? task index ⟨place, m⟩ =
      (answerOf task.program inst.op m).bind fun known =>
        if known.1.index = index then hitLength? known.2 else none := by
  have op : Config.op? task.program ⟨place, m⟩ = some inst.op := by
    rw [Config.op?, found]
    rfl
  rw [Config.hit?, op, Option.bind_some]
  rcases answer : answerOf task.program inst.op m with _ | ⟨id, _ | entry⟩
  · rfl
  · simp only [Option.bind_some, hitLength?, ite_self]
  · cases failed : entry.failed with
    | true => simp [hitLength?, failed]
    | false =>
        obtain ⟨target, m₁, goes, moved⟩ := exec_hit place inst.next answer failed
        have behind : (Config.next task ⟨place, m⟩).pos = m.pos + entry.consumed := by
          rw [next_eq found, show m.exec task place inst = .goto target m₁ from goes]
          exact moved
        simp only [behind, Nat.add_sub_cancel_left, Option.bind_some, hitLength?, failed, and_true,
          Bool.false_eq_true, if_false]

/-- A failure is counted with the way that it takes the cursor back, and nothing else is. -/
theorem step_failures (sound : Sound (m.step task place)) :
    let config : Config σ τ := ⟨place, m⟩
    (config.next task).stats.failures = m.stats.failures + (if config.fails task then 1 else 0) ∧
      (config.next task).stats.backtracks =
        m.stats.backtracks + (if 0 < config.givesBack task then 1 else 0) ∧
      (config.next task).stats.backtrackLength =
        m.stats.backtrackLength + config.givesBack task ∧
      (config.next task).stats.longestBacktrack ≤
        max m.stats.longestBacktrack (config.next task).maxPosition := by
  intro config
  have same := exec_sameFailures task place inst m
  have fails : config.fails task = (m.exec task place inst).isFailure := by
    rw [Config.fails, found]
    rfl
  have next : config.next task = reached (settle place (m.exec task place inst)) := next_eq found
  rw [step_eq found] at sound
  have leaves := exec_leaves task place inst m
  -- Only a failure has another state behind it than the one that the instruction leaves.
  have unfailed {m₁ : Machine σ τ} (plain : config.fails task = false)
      (onward : config.next task = m₁) (same : SameFailures m.stats m₁.stats) :
      (config.next task).stats.failures = m.stats.failures + 0 ∧
        (config.next task).stats.backtracks = m.stats.backtracks + 0 ∧
        (config.next task).stats.backtrackLength = m.stats.backtrackLength + 0 ∧
        (config.next task).stats.longestBacktrack ≤
          max m.stats.longestBacktrack (config.next task).maxPosition := by
    rw [onward]
    refine ⟨same.failures, same.backtracks, same.backtrackLength, ?_⟩
    rw [same.longestBacktrack]
    exact Nat.le_max_left _ _
  cases effect : m.exec task place inst with
  | goto target m₁ =>
      rw [effect] at fails next same
      simp only [fails, Config.givesBack, Effect.isFailure]
      exact unfailed fails next same
  | halt reason m₁ =>
      rw [effect] at fails next same
      simp only [fails, Config.givesBack, Effect.isFailure]
      exact unfailed fails next same
  | fail m₁ =>
      rw [effect] at fails next same sound leaves
      have failure : Failure m₁ (config.next task) := next ▸ failure_of_sound sound
      have further := failure.advances
      have counts := m₁.stats.backtrack_counts (config.next task).pos m₁.pos m₁.head
      rw [← failure.stats] at counts
      obtain ⟨failures, backtracks, length, longest⟩ := counts
      cases leaves with
      | fail updates still =>
          have back : config.givesBack task = m₁.pos - (config.next task).pos := by
            rw [Config.givesBack, fails, still]
            rfl
          rw [back, fails, failures, backtracks, length]
          refine ⟨congrArg (· + 1) same.failures, congrArg (· + _) same.backtracks,
            congrArg (· + _) same.backtrackLength, ?_⟩
          have before : m₁.stats.longestBacktrack = m.stats.longestBacktrack :=
            same.longestBacktrack
          unfold Advances maxPosition at further
          unfold maxPosition
          omega

theorem step_looked :
    Looked (answerOf task.program inst.op m) m (Config.next task ⟨place, m⟩) := by
  have looked := exec_looked task place inst m
  rw [next_eq found]
  constructor
  · rw [settle_points]
    exact looked.points
  · rw [memo_settle]
    exact looked.used

theorem step_stored (sound : Sound (m.step task place)) :
    (Config.next task ⟨place, m⟩).memo.stored =
      m.memo.stored + if m.memo.isDisabled then 0 else if inst.op.records then 1 else 0 := by
  rw [step_eq found] at sound
  rw [next_eq found, memo_settle]
  exact exec_stored sound

theorem step_isDisabled :
    (Config.next task ⟨place, m⟩).memo.isDisabled = m.memo.isDisabled := by
  rw [next_eq found, memo_settle]
  exact updates_keep (P := fun m' : Machine σ τ => m'.memo.isDisabled = m.memo.isDisabled)
    (fun _ _ same update => update.isDisabled.trans same)
    (exec_leaves task place inst m).updates rfl

/-- The counters of a memo point measure its hits, one more of them if the instruction is one. -/
theorem step_measures {index : Nat} {done : List (Config σ τ)}
    (measured : ∀ point : PointStats, m.stats.points[index]? = some point →
      point.Measures (done.filterMap (Config.hit? task index)))
    {point : PointStats} (there : (Config.next task ⟨place, m⟩).stats.points[index]? = some point) :
    point.Measures ((done ++ [(⟨place, m⟩ : Config σ τ)]).filterMap (Config.hit? task index)) := by
  have looked := step_looked (m := m) found
  have more : [(⟨place, m⟩ : Config σ τ)].filterMap (Config.hit? task index) =
      (Config.hit? task index ⟨place, m⟩).toList := by
    rw [List.filterMap_cons, List.filterMap_nil]
    cases Config.hit? task index ⟨place, m⟩ <;> rfl
  rw [looked.points] at there
  rw [List.filterMap_append, more, hit?_eq found]
  cases answer : answerOf task.program inst.op m with
  | none =>
      simp only [answer] at there
      rw [Option.bind_none, Option.toList_none, List.append_nil]
      exact measured point there
  | some known =>
      obtain ⟨id, result⟩ := known
      simp only [answer, Array.getElem?_modify] at there
      rw [Option.bind_some]
      by_cases here : id.index = index
      · rw [if_pos here] at there ⊢
        obtain ⟨before, present, rfl⟩ := Option.map_eq_some_iff.mp there
        exact (measured before present).count result
      · rw [if_neg here] at there ⊢
        rw [Option.toList_none, List.append_nil]
        exact measured point there

/-- The counters stay right over an instruction that does not stop the run at a fault. -/
theorem Accounts.step {disabled : Bool} {done : List (Config σ τ)}
    (accounts : Accounts task disabled done m.tally.stats m.maxPosition)
    (able : m.memo.isDisabled = disabled) (sound : Sound (m.step task place)) :
    Accounts task disabled (done ++ [⟨place, m⟩]) (Config.next task ⟨place, m⟩).tally.stats
      (Config.next task ⟨place, m⟩).maxPosition := by
  let config : Config σ τ := ⟨place, m⟩
  obtain ⟨failures, backtracks, length, longest⟩ := step_failures found sound
  have looked : Looked (answerOf task.program inst.op m) m (config.next task) := step_looked found
  have within (id : MemoId) (result : Option (MemoEntry τ))
      (answer : answerOf task.program inst.op m = some (id, result)) :
      id.index < m.stats.points.size := by
    rw [show m.stats.points.size = task.program.memoPoints.size from accounts.size]
    exact answerOf_within answer
  have op : config.op? task.program = some inst.op := by
    rw [Config.op?, found]
    rfl
  have once (p : Config σ τ → Bool) : (done ++ [config]).countP p =
      done.countP p + if p config then 1 else 0 := by
    rw [List.countP_append, List.countP_singleton]
  constructor
  · exact looked.size.trans accounts.size
  · have total := looked.total within PointStats.answered_count
    have before : m.memo.used = m.stats.total PointStats.answered := accounts.used
    exact looked.used.trans (by rw [before]; exact total.symm)
  · have total := looked.total within PointStats.lookups_count
    have before : m.stats.total PointStats.lookups = done.countP _ := accounts.lookups
    have answered := answerOf_isSome (step_eq found m ▸ sound)
    have looks : config.looksUp task.program = inst.op.lookedUp?.isSome := by
      rw [Config.looksUp, op]
      rfl
    rw [once, looks, ← answered, ← before]
    refine total.trans (congrArg (m.stats.total PointStats.lookups + ·) ?_)
    cases answerOf task.program inst.op m <;> rfl
  · have before : m.memo.stored = if disabled then 0 else done.countP _ := accounts.stored
    have records : config.records task.program = inst.op.records := by
      rw [Config.records, op]
      rfl
    have after := step_stored found sound
    rw [able, before] at after
    rw [once, records]
    refine after.trans ?_
    cases disabled <;> rfl
  · intro index point there
    have measured : ∀ point : PointStats, m.stats.points[index]? = some point → _ :=
      accounts.points index
    exact step_measures found measured there
  · rw [once, ← accounts.failures]
    exact failures
  · rw [once, ← accounts.backtracks]
    simp only [decide_eq_true_eq]
    exact backtracks
  · rw [List.map_append, List.sum_append, ← accounts.backtrackLength]
    exact length
  · have further : Advances m (config.next task) := step_advances place m
    have before : m.stats.longestBacktrack ≤ m.maxPosition := accounts.longest
    refine Nat.le_trans longest (Nat.max_le.mpr ⟨Nat.le_trans before ?_, Nat.le_refl _⟩)
    rw [further]
    exact Nat.le_max_left _ _

end Step

/-! ### Whole runs -/

theorem Accounts.initial (task : Task σ τ) (options : Options) (nodes : σ) :
    let m : Machine σ τ := (Machine.initial task.program options nodes).push (.ret .exitOk)
    Accounts task m.memo.isDisabled [] m.tally.stats m.maxPosition := by
  intro m
  have blank : m.memo = .ofStore (MemoTable.Recipe.ofOptions options _).blank :=
    MemoTable.Recipe.table_eq (.ofOptions options task.program.memoPoints.size)
  have zero (counter : PointStats → Nat) (nothing : counter .zero = 0) :
      m.tally.stats.total counter = 0 := by
    change ((Array.replicate _ PointStats.zero).toList.map counter).sum = 0
    rw [Array.toList_replicate, List.map_replicate, nothing, List.sum_replicate_nat, Nat.mul_zero]
  have used : m.memo.used = 0 := by rw [blank]; rfl
  have stored : m.memo.stored = 0 := by rw [blank]; rfl
  constructor
  · exact Array.size_replicate
  · exact used.trans (zero _ rfl).symm
  · exact zero _ rfl
  · exact stored.trans (ite_self 0).symm
  · intro index point there
    have fresh : point = .zero := by
      change (Array.replicate _ PointStats.zero)[index]? = some point at there
      rw [Array.getElem?_replicate] at there
      split at there
      · exact (Option.some.inj there).symm
      · cases there
    rw [fresh]
    exact ⟨rfl, rfl, rfl⟩
  · rfl
  · rfl
  · rfl
  · exact Nat.zero_le _

/-- The instructions of a path, entered one after the other. -/
theorem Accounts.trail {place target : InstId} {disabled : Bool} {done trail : List (Config σ τ)}
    (runs : Trail task place m trail target m')
    (accounts : Accounts task disabled done m.tally.stats m.maxPosition)
    (able : m.memo.isDisabled = disabled) :
    Accounts task disabled (done ++ trail) m'.tally.stats m'.maxPosition ∧
      m'.memo.isDisabled = disabled := by
  induction runs generalizing done with
  | refl place m =>
      rw [List.append_nil]
      exact ⟨accounts, able⟩
  | @head place next target m m₁ m' trail first rest ih =>
      have onward : Config.next task ⟨place, m⟩ = m₁ := by
        rw [Config.next, first]
        rfl
      cases found : task.program.inst? place with
      | none =>
          simp only [Machine.step, found] at first
          cases first
      | some inst =>
          have stepped := accounts.step found able (by rw [first]; trivial)
          have still := step_isDisabled (m := m) found
          rw [onward] at stepped still
          have all := ih stepped (still.trans able)
          rw [List.append_assoc] at all
          exact all

/-- A run that halts is a path and the instruction that it halts at. -/
theorem trail_of_steps {fuel : Nat} {place : InstId} {reason : Halt}
    (halts : steps task fuel place m = some (reason, m')) :
    ∃ (trail : List (Config σ τ)) (last : Config σ τ),
      Trail task place m trail last.place last.machine ∧
        last.machine.step task last.place = .halt reason m' := by
  induction fuel generalizing place m with
  | zero => cases halts
  | succ fuel ih =>
      rw [steps] at halts
      cases step : m.step task place with
      | halt stop m₁ =>
          rw [step] at halts
          cases halts
          exact ⟨[], ⟨place, m⟩, .refl place m, step⟩
      | goto next m₁ =>
          rw [step] at halts
          obtain ⟨trail, last, runs, stops⟩ := ih halts
          exact ⟨⟨place, m⟩ :: trail, last, .head step runs, stops⟩

/-- The statistics that a run reports from a new machine on agree with the instructions that it
executed: the lookups that were answered, by the table and at the memo points; all lookups; the
outcomes recorded, where there is a table; how far the hits of each memo point went; the failures;
how far they took the cursor back; and no way back is longer than the furthest position. -/
theorem statistics_account {options : Options} {nodes : σ} {fuel : Nat} {start : InstId}
    {matched : Bool}
    (ended : (Machine.initial task.program options nodes).run task fuel start =
      some (.exit matched, m)) :
    let first : Machine σ τ := (Machine.initial task.program options nodes).push (.ret .exitOk)
    let table : MemoTable τ := .ofOptions options task.program.memoPoints.size
    let report := (m.outcome task options matched).1
    ∃ (trail : List (Config σ τ)) (last : Config σ τ),
      Trail task start first trail last.place last.machine ∧
        (∃ m', last.machine.step task last.place = .halt (.exit matched) m' ∧ m = m'.tally) ∧
        Accounts task table.isDisabled (trail ++ [last]) report.stats report.maxPosition := by
  intro first table report
  rw [run_eq_leave] at ended
  obtain ⟨⟨reason, m'⟩, halts, same⟩ := Option.map_eq_some_iff.mp ended
  obtain ⟨rfl, rfl⟩ := Prod.mk.inj same
  obtain ⟨trail, last, runs, stops⟩ := trail_of_steps halts
  refine ⟨trail, last, runs, ⟨m', stops, rfl⟩, ?_⟩
  obtain ⟨place, m₁⟩ := last
  have begun : Accounts task table.isDisabled [] first.tally.stats first.maxPosition :=
    Accounts.initial task options nodes
  obtain ⟨accounts, able⟩ := Accounts.trail runs begun rfl
  have onward : Config.next task ⟨place, m₁⟩ = m' := by
    rw [Config.next, stops]
    rfl
  have ending : Accounts task table.isDisabled (trail ++ [⟨place, m₁⟩]) m'.tally.stats
      m'.maxPosition := by
    cases found : task.program.inst? place with
    | none =>
        simp only [Machine.step, found] at stops
        cases stops
    | some inst =>
        rw [← onward]
        exact accounts.step found able (by rw [stops]; exact ⟨matched, rfl⟩)
  have reported : report.stats = m'.tally.stats ∧ report.maxPosition = m'.maxPosition := by
    cases matched <;> exact ⟨rfl, rfl⟩
  rw [reported.1, reported.2]
  exact ending

/-- Two alternatives look up one rule at one position. The first lookup is a miss, whose match is
recorded before the alternative fails; the second one is a hit. -/
theorem statistics_account_shared :
    let task : Task Unit Tree := ⟨Peg.sharedProgram, .ofBytes #[0x61, 0x63], Tree.factory⟩
    let options : Options := { Options.initial with slots := some 1 }
    ∃ m trail last,
      (Machine.initial task.program options ()).run task 40 ⟨4⟩ = some (.exit true, m) ∧
        m.stats = ⟨1, 1, 1, 1, 1, 1, 0, #[⟨1, 0, 1, 1, 1⟩]⟩ ∧
        Accounts task false (trail ++ [last]) m.stats m.maxPosition := by
  intro task options
  have runs : ((Machine.initial task.program options ()).run task 40 ⟨4⟩).map
      (fun answer => (answer.1, answer.2.stats)) =
        some (.exit true, ⟨1, 1, 1, 1, 1, 1, 0, #[⟨1, 0, 1, 1, 1⟩]⟩) := by
    decide +kernel
  obtain ⟨⟨reason, m⟩, ended, same⟩ := Option.map_eq_some_iff.mp runs
  obtain ⟨rfl, counted⟩ := Prod.mk.inj same
  obtain ⟨trail, last, _, _, accounts⟩ := statistics_account ended
  exact ⟨m, trail, last, ended, counted, accounts⟩

end Machine

end Packrat
