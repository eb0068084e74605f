/-
Calls of rules, plain ones and those at memoized sites. At a memoized site the outcome is known, or
else the rule is evaluated and its outcome recorded; either way the run ends as the call does. A
site that misses does so before all that its rule misses, and its rule does not come back to it.
-/

import Packrat.Proofs.Peg.Simulation

namespace Packrat.Peg

variable {ρ σ τ : Type} {task : Task σ τ} {rules : ρ → Expr ρ} {layout : Layout ρ} {rule : ρ}
  {place k : InstId} {m : Machine σ τ} {pos far : Nat} {result : Option Nat}

theorem evaluates_call (laid : RuleCode task.program layout rules)
    (ih : Evaluates task rules layout (rules rule) pos result far)
    (code : CallCode task.program layout rule place k) (at_pos : m.pos = pos) (chained : m.Chained)
    (faithful : Faithful task.input rules layout m) :
    Tracks task rules layout (Calls task.input rules (rules rule) pos) place m m k far result := by
  obtain ⟨target, back, name, next, call, enters, returns⟩ := code
  obtain ⟨done, after, body, ret⟩ := laid rule
  let entered := m.push (.ret back)
  have calls : Machine.Course task place m [] target entered :=
    Machine.course_target call fun _ _ => rfl
  have tracks := ih (layout.entry rule) done entered body at_pos (chained.push rfl) faithful
  refine Tracks.before ((Traces.quiet calls rfl).trans (.leads enters entered)) ?_
  cases result with
  | some stop =>
      obtain ⟨m₁, path, arrives⟩ := tracks
      have left := Machine.course_ret chained ret arrives.same.toSameStack
      exact ⟨m₁.withStack m, path.trans ((Traces.quiet left rfl).trans (.leads returns _)),
        arrives.pop⟩
  | none =>
      obtain ⟨target', m', path, falls⟩ := tracks
      exact ⟨target', m', path, falls.pop chained⟩

/-! ### Memoized sites -/

section

variable {point : MemoId} {info : MemoPoint} {entry : MemoEntry τ}

theorem memoState_stateless (m : Machine σ τ) (stateless : info.stateful = false) :
    m.memoState info = none := by
  unfold Machine.memoState
  rw [stateless]
  rfl

def missed (m : Machine σ τ) (point : MemoId) : Machine σ τ :=
  { m with
    memo := (m.memo.lookup m.pos point none).2
    stats := m.stats.countPoint point.index PointStats.miss }

def refused (m : Machine σ τ) (point : MemoId) : Machine σ τ :=
  { m with
    memo := (m.memo.lookup m.pos point none).2
    stats := m.stats.countPoint point.index PointStats.failHit }

def skipped (m : Machine σ τ) (point : MemoId) (consumed : Nat) : Machine σ τ :=
  { m with
    memo := (m.memo.lookup m.pos point none).2
    pos := m.pos + consumed
    stats := m.stats.countPoint point.index fun stats => stats.hit consumed }

theorem lookup_miss (unknown : (m.memo.find m.pos point none).1 = none)
    (stateless : info.stateful = false) (next skip : InstId) (label : Option Symbol) :
    m.lookup next skip point info label = .goto next (missed m point) := by
  have answer : (m.memo.lookup m.pos point none).1 = none := unknown
  simp only [Machine.lookup, memoState_stateless m stateless, answer, missed]

theorem lookup_refuse (known : (m.memo.find m.pos point none).1 = some entry)
    (failed : entry.failed = true) (stateless : info.stateful = false) (next skip : InstId)
    (label : Option Symbol) :
    m.lookup next skip point info label = .fail (refused m point) := by
  have answer : (m.memo.lookup m.pos point none).1 = some entry := known
  simp only [Machine.lookup, memoState_stateless m stateless, answer, failed, if_true, refused]

theorem lookup_skip (known : (m.memo.find m.pos point none).1 = some entry)
    (matched : entry.failed = false) (stateless : info.stateful = false) (next skip : InstId) :
    m.lookup next skip point info none = .goto skip (skipped m point entry.consumed) := by
  have answer : (m.memo.lookup m.pos point none).1 = some entry := known
  simp only [Machine.lookup, memoState_stateless m stateless, answer, matched,
    Bool.false_eq_true, if_false, skipped]

theorem missOf_lookup (resolved : task.program.memoPoint? point = some info)
    (stateless : info.stateful = false) (skip : InstId) :
    Machine.missOf task.program (.memo (.lookup point skip)) m =
      if (m.memo.find m.pos point none).1.isSome then none else some (point, m.pos) := by
  unfold Machine.missOf
  rw [← memoState_stateless m stateless]
  simp only [Op.lookedUp?, Option.bind_some, resolved]

/-- A match recorded where the rule was entered, at the choice point that was pushed there. -/
theorem storeMatch_pushed {failure : InstId} {m₁ : Machine σ τ}
    (under : Machine.SameStack (m.pushChoice failure) m₁) (stateless : info.stateful = false)
    (site : Site) (next : InstId) (node? : Option τ) :
    m₁.storeMatch site next point info node? =
      .goto next { m₁.withStack m with
        memo := m₁.memo.record m.pos point ⟨false, m₁.pos - m.pos, node?, 0⟩ } := by
  obtain ⟨choice, _, frames, innermost, started, outer, _⟩ := Machine.innermost_pushed under
  simp only [Machine.storeMatch, innermost, Machine.cut_pushed frames outer, stateless, started,
    Bool.false_eq_true, if_false]
  rfl

theorem storeFailure_stateless (m : Machine σ τ) (stateless : info.stateful = false) :
    m.storeFailure point info =
      .fail { m with memo := m.memo.record m.pos point ⟨true, 0, none, 0⟩ } := by
  simp only [Machine.storeFailure, memoState_stateless m stateless, Option.getD_none]

end

theorem evaluates_hit {calls : ρ → Nat → Prop} {point : MemoId} {info : MemoPoint}
    {entry : MemoEntry τ} {skip attempt : InstId}
    (derives : Derives task.input rules (rules rule) pos result far)
    (memoized : layout.memoized point = some rule)
    (resolved : task.program.memoPoint? point = some info) (stateless : info.stateful = false)
    (meets : Meets task.program place (.memo (.lookup point skip)) attempt)
    (leads : Leads task.program skip k) (known : (m.memo.find m.pos point none).1 = some entry)
    (at_pos : m.pos = pos) (chained : m.Chained) (faithful : Faithful task.input rules layout m) :
    Tracks task rules layout calls place m m k far result := by
  obtain ⟨far', derives', within⟩ := faithful m.pos point rule entry memoized known
  subst at_pos
  obtain ⟨rfl, rfl⟩ := derives.unique derives'
  have ⟨started, bounds⟩ := derives.bounds
  have silent : Machine.missOf task.program (.memo (.lookup point skip)) m = none := by
    rw [missOf_lookup resolved stateless, known]
    rfl
  cases failed : entry.failed with
  | true =>
      have same : stopOf m.pos entry = none := by
        unfold stopOf
        rw [failed]
        rfl
      rw [same]
      have refuses (place next : InstId) :
          m.exec task place ⟨.memo (.lookup point skip), next⟩ = .fail (refused m point) := by
        simp only [Machine.exec, Machine.memoStep, Op.memoId?, resolved,
          lookup_refuse known failed stateless]
      obtain ⟨target, m', course, memo, falls⟩ :=
        (Arrives.refl faithful).fails meets refuses chained ⟨⟨rfl, rfl⟩, rfl, rfl⟩ rfl
          (faithful.mono (fun _ _ => rfl) (Nat.le_refl _))
      rw [silent] at course
      refine ⟨target, m', .quiet course (by rw [memo]; rfl), falls.unwinds, ?_, falls.faithful⟩
      have furthest := falls.furthest
      omega
  | false =>
      have same : stopOf m.pos entry = some (m.pos + entry.consumed) := by
        unfold stopOf
        rw [failed]
        rfl
      have consumed := (bounds _ same).2
      rw [same]
      have course : Machine.Course task place m
          (Machine.missOf task.program (.memo (.lookup point skip)) m).toList skip
          (skipped m point entry.consumed) :=
        Machine.course_target meets fun place next => by
          simp only [Machine.exec, Machine.memoStep, Op.memoId?, resolved,
            lookup_skip known failed stateless]
      rw [silent] at course
      have furthest : (skipped m point entry.consumed).maxPosition = m.maxPosition := by
        unfold Machine.maxPosition at within ⊢
        change max m.head (m.pos + entry.consumed) = max m.head m.pos
        omega
      refine ⟨skipped m point entry.consumed, (Traces.quiet course rfl).trans (.leads leads _), rfl,
        ⟨⟨rfl, rfl⟩, rfl, rfl⟩, ?_, faithful.mono (fun _ _ => rfl) (Nat.le_of_eq furthest.symm)⟩
      rw [furthest, Nat.max_eq_left within]

/-- What was missed first is recorded last. The rule of a site does not call itself where it was
entered, so the outcome was not missed in between. -/
theorem Tidy.record {before between after : MemoTable τ} {keys : List (MemoId × Nat)}
    {point : MemoId} (tidy : Tidy layout (Calls task.input rules (rules rule) pos) between after keys)
    (derives : Derives task.input rules (rules rule) pos result far)
    (same : between.store = before.store) (memoized : layout.memoized point = some rule)
    (unknown : (before.find pos point none).1 = none) (entry : MemoEntry τ) :
    Tidy layout (Calls task.input rules (.call rule) pos) before (after.record pos point entry)
      ((point, pos) :: keys) := by
  have once : ¬ Calls task.input rules (rules rule) pos rule pos :=
    (Derives.call derives).not_reentered .here
  have fresh : (point, pos) ∉ keys := by
    intro member
    obtain ⟨rule', memoized', call⟩ := tidy.called _ member
    rw [memoized, Option.some.injEq] at memoized'
    subst memoized'
    exact once call
  have joined : Tidy layout (Calls task.input rules (rules rule) pos) before after ([] ++ keys) :=
    Tidy.trans (.idle same) tidy
  refine ⟨List.forall_mem_cons.mpr ⟨⟨rule, memoized, .here⟩, fun key member => ?_⟩, fun exact => ?_⟩
  · obtain ⟨rule', memoized', call⟩ := tidy.called key member
    exact ⟨rule', memoized', .inside call⟩
  · refine (joined.learns exact).record ?_ fresh entry
    unfold MemoTable.Knows
    rw [unknown]
    exact Bool.false_ne_true

section

variable {point : MemoId} {info : MemoPoint} {skip attempt failed call store next : InstId}
  {m₁ : Machine σ τ} {stop : Nat}

theorem course_into_site (resolved : task.program.memoPoint? point = some info)
    (stateless : info.stateful = false)
    (meets : Meets task.program place (.memo (.lookup point skip)) attempt)
    (alt : Meets task.program attempt (.control (.alt failed)) call)
    (unknown : (m.memo.find m.pos point none).1 = none) :
    Machine.Course task place m [(point, m.pos)] call ((missed m point).pushChoice failed) := by
  have missing : Machine.missOf task.program (.memo (.lookup point skip)) m =
      some (point, m.pos) := by
    rw [missOf_lookup resolved stateless, unknown]
    rfl
  have looked := Machine.course_next meets fun place next => by
    simp only [Machine.exec, Machine.memoStep, Op.memoId?, resolved]
    exact lookup_miss unknown stateless next skip none
  rw [missing] at looked
  exact looked.trans (Machine.course_alt alt (missed m point))

/-- The match of a rule that was entered at a site is recorded there. -/
theorem course_of_store (derives : Derives task.input rules (rules rule) m.pos (some stop) far)
    (memoized : layout.memoized point = some rule)
    (resolved : task.program.memoPoint? point = some info) (stateless : info.stateful = false)
    (stores : Meets task.program store (.memo (.store point)) k)
    (arrives : Arrives task.input rules layout ((missed m point).pushChoice failed) stop far m₁) :
    ∃ entry m', Machine.Course task store m₁ [] k m' ∧
      m'.memo = m₁.memo.record m.pos point entry ∧
      Arrives task.input rules layout m stop far m' := by
  let entry : MemoEntry τ := ⟨false, m₁.pos - m.pos, none, 0⟩
  have left := arrives.leave
  have course : Machine.Course task store m₁ [] k
      { m₁.withStack (missed m point) with memo := m₁.memo.record m.pos point entry } :=
    Machine.course_next stores fun place next => by
      simp only [Machine.exec, Machine.memoStep, Op.memoId?, resolved,
        storeMatch_pushed arrives.same.toSameStack stateless]
      rfl
  have span : stop = m.pos + (m₁.pos - m.pos) := by
    have bounds := (derives.bounds.2 stop rfl).1
    rw [arrives.pos]
    omega
  have true_entry : Derives task.input rules (rules rule) m.pos (stopOf m.pos entry) far := by
    change Derives task.input rules (rules rule) m.pos (some (m.pos + (m₁.pos - m.pos))) far
    rw [← span]
    exact derives
  exact ⟨entry, _, course, rfl, left.pos, ⟨⟨rfl, rfl⟩, left.same.log, left.same.bindings⟩,
    left.furthest, left.faithful.record memoized true_entry left.reach⟩

/-- The failure of a rule that was entered at a site is recorded there, and passed on. -/
theorem course_of_storeFailure (derives : Derives task.input rules (rules rule) m.pos none far)
    (memoized : layout.memoized point = some rule)
    (resolved : task.program.memoPoint? point = some info) (stateless : info.stateful = false)
    (fails : Meets task.program failed (.memo (.storeFailure point)) next) (chained : m.Chained)
    {resumed : InstId}
    (falls : Falls task.input rules layout ((missed m point).pushChoice failed) far resumed m₁) :
    ∃ entry target m', Machine.Course task resumed m₁ [] target m' ∧
      m'.memo = m₁.memo.record m.pos point entry ∧
      Falls task.input rules layout m far target m' := by
  obtain ⟨same, arrives⟩ := falls.resumed
  subst same
  have returned : m₁.pos = m.pos := arrives.pos
  let entry : MemoEntry τ := ⟨true, 0, none, 0⟩
  have records (place next : InstId) :
      m₁.exec task place ⟨.memo (.storeFailure point), next⟩ =
        .fail { m₁ with memo := m₁.memo.record m.pos point entry } := by
    simp only [Machine.exec, Machine.memoStep, Op.memoId?, resolved,
      storeFailure_stateless m₁ stateless, returned, entry]
  have stays : Machine.SameUndo m (missed m point) := ⟨⟨rfl, rfl⟩, rfl, rfl⟩
  have back : Arrives task.input rules layout m m.pos far m₁ :=
    ⟨arrives.pos, stays.trans arrives.same, arrives.furthest, arrives.faithful⟩
  obtain ⟨target, m', course, memo, falls'⟩ :=
    back.fails fails records chained ⟨⟨rfl, rfl⟩, rfl, rfl⟩ rfl
      (back.faithful.record memoized derives back.reach)
  exact ⟨entry, target, m', course, memo, falls'⟩

theorem evaluates_miss (derives : Derives task.input rules (rules rule) pos result far)
    (tracks : ∀ (m : Machine σ τ), m.pos = pos → m.Chained → Faithful task.input rules layout m →
      Tracks task rules layout (Calls task.input rules (rules rule) pos) call m m store far result)
    (memoized : layout.memoized point = some rule)
    (resolved : task.program.memoPoint? point = some info) (stateless : info.stateful = false)
    (meets : Meets task.program place (.memo (.lookup point skip)) attempt)
    (alt : Meets task.program attempt (.control (.alt failed)) call)
    (stores : Meets task.program store (.memo (.store point)) k)
    (fails : Meets task.program failed (.memo (.storeFailure point)) next)
    (unknown : (m.memo.find m.pos point none).1 = none) (at_pos : m.pos = pos)
    (chained : m.Chained) (faithful : Faithful task.input rules layout m) :
    Tracks task rules layout (Calls task.input rules (.call rule) pos) place m m k far result := by
  have entered := course_into_site resolved stateless meets alt unknown
  have faithful' : Faithful task.input rules layout (missed m point) :=
    faithful.mono (fun _ _ => rfl) (Nat.le_refl _)
  have tracked := tracks ((missed m point).pushChoice failed) at_pos
    (Machine.Chained.pushChoice (chained.same ⟨rfl, rfl⟩) failed) faithful'
  subst at_pos
  have same : (missed m point).memo.store = m.memo.store := rfl
  cases result with
  | some stop =>
      obtain ⟨m₁, ⟨keys, course, tidy⟩, arrives⟩ := tracked
      obtain ⟨entry, m', stored, memo, arrives'⟩ :=
        course_of_store derives memoized resolved stateless stores arrives
      have whole := entered.trans (course.trans stored)
      have recorded := tidy.record derives same memoized unknown entry
      rw [← memo] at recorded
      rw [List.append_nil] at whole
      exact ⟨m', ⟨(point, m.pos) :: keys, whole, recorded⟩, arrives'⟩
  | none =>
      obtain ⟨resumed, m₁, ⟨keys, course, tidy⟩, falls⟩ := tracked
      obtain ⟨entry, target, m', stored, memo, falls'⟩ :=
        course_of_storeFailure derives memoized resolved stateless fails chained falls
      have whole := entered.trans (course.trans stored)
      have recorded := tidy.record derives same memoized unknown entry
      rw [← memo] at recorded
      rw [List.append_nil] at whole
      exact ⟨target, m', ⟨(point, m.pos) :: keys, whole, recorded⟩, falls'⟩

end

theorem evaluates_site (laid : RuleCode task.program layout rules)
    (derives : Derives task.input rules (rules rule) pos result far)
    (ih : Evaluates task rules layout (rules rule) pos result far)
    (code : MemoCode task.program layout rule place k) (at_pos : m.pos = pos) (chained : m.Chained)
    (faithful : Faithful task.input rules layout m) :
    Tracks task rules layout (Calls task.input rules (.call rule) pos) place m m k far result := by
  obtain ⟨point, info, skip, attempt, failed, call, store, next, memoized, resolved, stateless,
    meets, leads, alt, calls, stores, fails⟩ := code
  cases known : (m.memo.find m.pos point none).1 with
  | some entry =>
      exact evaluates_hit derives memoized resolved stateless meets leads known at_pos chained
        faithful
  | none =>
      exact evaluates_miss derives
        (fun m at_pos chained faithful => evaluates_call laid ih calls at_pos chained faithful)
        memoized resolved stateless meets alt stores fails known at_pos chained faithful

end Packrat.Peg
