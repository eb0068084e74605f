/-
Labelled expressions. What the body logs is built into a node where it ends, or else the node of a
known outcome is attached; the two agree up to a vacant link, which stands for a rule that built none.
-/

import Packrat.Proofs.Peg.Sites
import Packrat.Proofs.TreePeg.Constructs

namespace Packrat.TreePeg.Setting

open Machine (Reaches SameStack)
open Peg (missed refused skipped)
open TreeLog (attached)

variable {ρ τ : Type} {s : Setting ρ τ} {rule : ρ} {label : Symbol} {place k : InstId}
  {m : Machine Unit τ} {pos stop : Nat} {logged : List (Intent τ)} {result : Result τ}
  {body : Expr ρ}

def linked (s : Setting ρ τ) (label : Symbol) (result : Result τ) : Result τ :=
  result.map fun success => (success.1, attached label (s.node? success.2))

theorem nodeOf_factory (intents : List (Intent τ)) (state : Unit) :
    TreeLog.nodeOf s.task.factory intents state = s.node? intents := by
  rw [s.factory]

theorem solid_attached (label : Symbol) (child : Option τ) :
    Intent.solid (attached label child) = attached label child := by
  cases child <;> rfl

theorem attached_off (off : s.building = false)
    (yields : s.Yields body pos (some (stop, logged))) : attached label (s.node? logged) = [] := by
  unfold Setting.Yields at yields
  rw [off] at yields
  rw [yields.logged_nil]
  rfl

/-! ### Emitting -/

/-- At an emit that is reached, what was read makes the node of what the derivation logs. -/
theorem node_alike {added : List (Intent τ)} {next : InstId} {mark : LogMark}
    (sound : s.Sound place m) (emits : Meets s.task.program place (.tree (.emit label)) next)
    (top : m.frames.back? = some (.tree mark)) (tail : m.log.intentsAfter mark.index = added)
    (reads : s.Reads added logged) (told : s.Exact ∨ s.Alike) :
    s.node? added = s.node? logged := by
  rcases told with exact | alike
  · rw [reads.exact exact]
  · obtain ⟨last, after, leads, found, _⟩ := emits
    have stands := sound.reached.trans (Machine.reaches_of_leads leads m)
    have same := alike last m stands label after mark found top
    rw [tail, reads.alike alike, nodeOf_factory, nodeOf_factory] at same
    exact same

/-- Building a body that succeeded: its node is attached, and remembered as the latest. -/
theorem Follows.built (ih : s.Follows body pos (some (stop, logged)))
    (yields : s.Yields body pos (some (stop, logged))) {entry emit : InstId}
    (begins : Meets s.task.program place (.tree .checkpoint) entry)
    (code : TreeCode s.task.program s.layout body entry emit)
    (emits : Meets s.task.program emit (.tree (.emit label)) k) (at_pos : m.pos = pos)
    (sound : s.Sound place m) :
    ∃ m', Reaches s.task place m k m' ∧
      s.Arrives m stop (attached label (s.node? logged)) m' ∧
      (s.building = true → s.Exact ∨ s.Alike → m'.log.latestLinked = s.node? logged) := by
  let saved := m.push (.tree m.log.mark)
  have save : Reaches s.task place m entry saved := Machine.reaches_next begins fun _ _ => rfl
  have inside : s.Sound entry saved := sound.move save (sound.chained.push rfl) rfl rfl
  obtain ⟨m₁, path, arrives⟩ := ih entry emit saved code at_pos inside
  have at_emit := inside.arrive path arrives
  obtain ⟨added, grows, reads⟩ := arrives.logs
  obtain ⟨live, free, layout⟩ := sound.layout
  have tail : m₁.log.intentsAfter m.log.mark.index = added := grows.intentsAfter layout
  have top : m₁.frames.back? = some (.tree m.log.mark) := by
    rw [arrives.same.frames]
    exact Array.back?_push
  have alike := node_alike at_emit emits top tail reads
  let committed := m₁.log.commit s.task.factory m.log.mark label m₁.nodes
  let m' : Machine Unit τ := { m₁.withStack m with log := committed.1, nodes := committed.2 }
  have emitted : Reaches s.task emit m₁ k m' := Machine.reaches_next emits fun place next => by
    have marked : Frame.tree? (.tree m.log.mark) = some m.log.mark := rfl
    have popped := Machine.popAs_pushed sound.chained arrives.same marked .tree
    simp only [Machine.exec, Machine.treeStep, popped]
    rfl
  have logs : ∃ added', m.log.Extends m'.log added' ∧
      s.Reads added' (attached label (s.node? logged)) := by
    cases building : s.building with
    | true =>
        have enabled : m.log.enabled = true := sound.enabled.trans building
        have built := grows.commit enabled s.task.factory label m₁.nodes
        rw [nodeOf_factory] at built
        refine ⟨_, built, fun exact => by rw [reads.exact exact], fun wanted => ?_⟩
        rw [solid_attached, alike (.inr wanted)]
    | false =>
        have disabled : m₁.log.enabled = false := at_emit.enabled.trans building
        have kept : m'.log = m₁.log := by
          change (m₁.log.commit s.task.factory m.log.mark label m₁.nodes).1 = m₁.log
          unfold TreeLog.commit
          rw [disabled]
          rfl
        have nothing : attached label (s.node? logged) = [] := attached_off building yields
        have unlogged : logged = [] := by
          unfold Setting.Yields at yields
          rw [building] at yields
          exact yields.logged_nil
        rw [nothing, kept]
        rw [unlogged] at reads
        exact ⟨added, grows, reads⟩
  refine ⟨m', save.trans (path.trans emitted),
    ⟨arrives.pos, ⟨rfl, rfl⟩, logs, arrives.faithful.keep rfl⟩, fun building told => ?_⟩
  have latest : m'.log.latestLinked = _ :=
    TreeLog.latestLinked_commit (at_emit.enabled.trans building)
  rw [latest, tail, nodeOf_factory, alike told]

theorem Follows.unbuilt (ih : s.Follows body pos none) {entry emit : InstId}
    (begins : Meets s.task.program place (.tree .checkpoint) entry)
    (code : TreeCode s.task.program s.layout body entry emit) (at_pos : m.pos = pos)
    (sound : s.Sound place m) : s.Performs place m m k none := by
  let saved := m.push (.tree m.log.mark)
  have save : Reaches s.task place m entry saved := Machine.reaches_next begins fun _ _ => rfl
  have inside : s.Sound entry saved := sound.move save (sound.chained.push rfl) rfl rfl
  obtain ⟨target, m', path, falls⟩ := ih entry emit saved code at_pos inside
  exact ⟨target, m', save.trans path, falls.pop sound.chained⟩

/-! ### Memoized sites -/

section

variable {point : MemoId} {info : MemoPoint} {entry : MemoEntry τ}

theorem lookup_attach (known : (m.memo.find m.pos point none).1 = some entry)
    (matched : entry.failed = false) (stateless : info.stateful = false) (next skip : InstId) :
    m.lookup next skip point info (some label) =
      .goto skip ((skipped m point entry.consumed).logged fun log =>
        log.link label entry.result) := by
  have answer : (m.memo.lookup m.pos point none).1 = some entry := known
  simp only [Machine.lookup, Peg.memoState_stateless m stateless, answer, matched,
    Bool.false_eq_true, if_false, skipped]

/-- A known node reads as the node that evaluating the rule builds; a vacant link reads as nothing. -/
theorem reads_known (faithful : s.Faithful m) (memoized : s.layout.memoized point = some rule)
    (known : (m.memo.find m.pos point none).1 = some entry)
    (yields : s.Yields (s.rules rule) pos (some (stop, logged)))
    (tells : s.building = true → s.Exact ∨ s.Alike → entry.result = s.node? logged) :
    s.Reads (if s.building then [.link label entry.result] else [])
      (attached label (s.node? logged)) := by
  cases building : s.building with
  | false =>
      rw [attached_off building yields]
      exact reads_nil
  | true =>
      rw [if_pos rfl]
      constructor
      · intro exact
        rw [tells building (.inl exact)]
        rcases exact with bare | builds
        · unfold MemoTable.find at known
          rw [faithful.bare bare] at known
          cases known
        · unfold Setting.Yields at yields
          rw [building] at yields
          have some_node := builds point rule pos stop logged memoized yields
          cases logged with
          | nil => exact absurd rfl some_node
          | cons head rest => rfl
      · intro alike
        rw [Intent.solid_link, tells building (.inr alike)]

theorem follows_hit {skip attempt : InstId} (yields : s.Yields (s.rules rule) pos result)
    (memoized : s.layout.memoized point = some rule)
    (resolved : s.task.program.memoPoint? point = some info) (stateless : info.stateful = false)
    (meets : Meets s.task.program place (.memo (.treeLookup point label skip)) attempt)
    (leads : Leads s.task.program skip k) (known : (m.memo.find m.pos point none).1 = some entry)
    (at_pos : m.pos = pos) (sound : s.Sound place m) :
    s.Performs place m m k (s.linked label result) := by
  have knows := sound.faithful.knows m.pos point rule entry memoized known
  subst at_pos
  unfold Setting.Knows at knows
  cases failed : entry.failed with
  | true =>
      rw [failed] at knows
      cases yields.unique knows
      have refuses (place next : InstId) :
          m.exec s.task place ⟨.memo (.treeLookup point label skip), next⟩ =
            .fail (refused m point) := by
        simp only [Machine.exec, Machine.memoStep, Op.memoId?, resolved,
          Peg.lookup_refuse known failed stateless]
      exact (Arrives.refl sound.faithful).fails meets refuses sound.chained ⟨rfl, rfl⟩ rfl
        (sound.faithful.keep rfl)
  | false =>
      rw [failed] at knows
      obtain ⟨logged, yields', tells⟩ := knows
      cases yields.unique yields'
      let m' := (skipped m point entry.consumed).logged fun log => log.link label entry.result
      have path : Reaches s.task place m skip m' :=
        Machine.reaches_target meets fun place next => by
          simp only [Machine.exec, Machine.memoStep, Op.memoId?, resolved,
            lookup_attach known failed stateless, m']
      have grows := TreeLog.Extends.link m.log label entry.result
      rw [sound.enabled] at grows
      exact ⟨m', path.trans (Machine.reaches_of_leads leads m'), rfl, ⟨rfl, rfl⟩,
        ⟨_, grows, reads_known sound.faithful memoized known yields' tells⟩, sound.faithful.keep rfl⟩

theorem enters_site {skip attempt failed start : InstId}
    (resolved : s.task.program.memoPoint? point = some info) (stateless : info.stateful = false)
    (meets : Meets s.task.program place (.memo (.treeLookup point label skip)) attempt)
    (alt : Meets s.task.program attempt (.control (.alt failed)) start)
    (unknown : (m.memo.find m.pos point none).1 = none) (sound : s.Sound place m) :
    Reaches s.task place m start ((missed m point).pushChoice failed) ∧
      s.Sound start ((missed m point).pushChoice failed) := by
  have looked : Reaches s.task place m attempt (missed m point) :=
    Machine.reaches_next meets fun place next => by
      simp only [Machine.exec, Machine.memoStep, Op.memoId?, resolved,
        Peg.lookup_miss unknown stateless]
  have at_attempt : s.Sound attempt (missed m point) :=
    sound.move looked (sound.chained.same ⟨rfl, rfl⟩) rfl rfl
  exact ⟨looked.trans (Machine.reaches_alt alt (missed m point)), at_attempt.alt alt⟩

theorem follows_miss {skip attempt failed start call emit store next : InstId}
    (yields : s.Yields (s.rules rule) pos result) (ih : s.Follows (.call rule) pos result)
    (memoized : s.layout.memoized point = some rule)
    (resolved : s.task.program.memoPoint? point = some info) (stateless : info.stateful = false)
    (meets : Meets s.task.program place (.memo (.treeLookup point label skip)) attempt)
    (alt : Meets s.task.program attempt (.control (.alt failed)) start)
    (begins : Meets s.task.program start (.tree .checkpoint) call)
    (calls : TreeCode s.task.program s.layout (.call rule) call emit)
    (emits : Meets s.task.program emit (.tree (.emit label)) store)
    (stores : Meets s.task.program store (.memo (.treeStore point)) k)
    (fails : Meets s.task.program failed (.memo (.storeFailure point)) next)
    (unknown : (m.memo.find m.pos point none).1 = none) (at_pos : m.pos = pos)
    (sound : s.Sound place m) : s.Performs place m m k (s.linked label result) := by
  have ⟨entered, at_start⟩ := enters_site resolved stateless meets alt unknown sound
  have inside : ((missed m point).pushChoice failed).pos = pos := at_pos
  have stays : s.Arrives m m.pos [] (missed m point) :=
    ⟨rfl, ⟨rfl, rfl⟩, ⟨[], .refl m.log, reads_nil⟩, sound.faithful.keep rfl⟩
  refine Performs.before entered ?_
  cases result with
  | some success =>
      obtain ⟨stop, logged⟩ := success
      obtain ⟨m₁, path, arrives, latest⟩ := ih.built (.call yields) begins calls emits inside at_start
      have left : s.Arrives m stop (attached label (s.node? logged)) (m₁.withStack (missed m point)) :=
        stays.trans (arrives.leave rfl)
      let entry : MemoEntry τ := ⟨false, m₁.pos - m.pos, m₁.log.latestLinked, 0⟩
      let m' : Machine Unit τ :=
        { m₁.withStack (missed m point) with memo := m₁.memo.record m.pos point entry }
      have stored : Reaches s.task store m₁ k m' :=
        Machine.reaches_next stores fun place next => by
          simp only [Machine.exec, Machine.memoStep, Op.memoId?, resolved,
            Peg.storeMatch_pushed arrives.same stateless]
          rfl
      have span : stop = m.pos + (m₁.pos - m.pos) := by
        have bound := yields.bound
        rw [arrives.pos]
        omega
      have knows : s.Knows rule m.pos entry := by
        refine ⟨logged, ?_, latest⟩
        change s.Yields (s.rules rule) m.pos (some (m.pos + (m₁.pos - m.pos), logged))
        rw [← span, at_pos]
        exact yields
      exact ⟨m', path.trans stored, left.pos, ⟨rfl, rfl⟩, left.logs,
        left.faithful.record memoized knows⟩
  | none =>
      have performs : s.Performs start _ _ store none := ih.unbuilt begins calls inside at_start
      obtain ⟨target, m₁, path, falls⟩ := performs
      obtain ⟨rfl, arrives⟩ := falls.resumed
      let entry : MemoEntry τ := ⟨true, 0, none, 0⟩
      have knows : s.Knows rule m₁.pos entry := by
        change s.Yields (s.rules rule) m₁.pos none
        rw [arrives.pos]
        change s.Yields (s.rules rule) m.pos none
        rw [at_pos]
        exact yields
      have records (place next : InstId) :
          m₁.exec s.task place ⟨.memo (.storeFailure point), next⟩ =
            .fail { m₁ with memo := m₁.memo.record m₁.pos point entry } := by
        simp only [Machine.exec, Machine.memoStep, Op.memoId?, resolved,
          Peg.storeFailure_stateless m₁ stateless, entry]
      refine Performs.before path ?_
      exact (stays.trans arrives).fails fails records sound.chained ⟨rfl, rfl⟩ rfl
        (arrives.faithful.record memoized knows)

end

theorem follows_site (yields : s.Yields (s.rules rule) pos result)
    (ih : s.Follows (.call rule) pos result)
    (code : SiteCode s.task.program s.layout label rule place k) (at_pos : m.pos = pos)
    (sound : s.Sound place m) : s.Performs place m m k (s.linked label result) := by
  obtain ⟨point, info, skip, attempt, failed, start, call, emit, store, next, memoized, resolved,
    stateless, meets, leads, alt, begins, calls, emits, stores, fails⟩ := code
  cases known : (m.memo.find m.pos point none).1 with
  | some entry =>
      exact follows_hit yields memoized resolved stateless meets leads known at_pos sound
  | none =>
      exact follows_miss yields ih memoized resolved stateless meets alt begins calls emits stores
        fails known at_pos sound

theorem follows_link (yields : s.Yields body pos result) (ih : s.Follows body pos result) :
    s.Follows (.link label body) pos (s.linked label result) := by
  intro place k m code at_pos sound
  rcases code with ⟨entry, emit, begins, code, emits⟩ | ⟨rule, rfl, site⟩
  · cases result with
    | some success =>
        obtain ⟨m', path, arrives, _⟩ := ih.built yields begins code emits at_pos sound
        exact ⟨m', path, arrives⟩
    | none => exact ih.unbuilt begins code at_pos sound
  · cases yields with
    | call yields => exact follows_site yields ih site at_pos sound

end Packrat.TreePeg.Setting
