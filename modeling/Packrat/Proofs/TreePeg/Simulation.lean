/-
A derivation that builds trees, followed by the machine. What a run logs and what the derivation logs
differ by vacant links: a lookup logs one where the rule it stands for logs nothing. There are none if
the memoized rules always log something, and none is seen as long as every emit builds the node that
it would build without them.
-/

import Packrat.Proofs.Memo.Record
import Packrat.Proofs.TreePeg.Code

namespace Packrat.TreePeg

open Machine (Reaches SameStack Unwinds)
open Peg (Layout)

variable {ρ σ τ : Type}

/-- An emit builds the node that it would build without the vacant links among what it reads. -/
def BuildsAlike (task : Task σ τ) (place : InstId) (m : Machine σ τ) : Prop :=
  ∀ label next mark, task.program.inst? place = some ⟨.tree (.emit label), next⟩ →
    m.frames.back? = some (.tree mark) →
    TreeLog.nodeOf task.factory (m.log.intentsAfter mark.index) m.nodes =
      TreeLog.nodeOf task.factory (Intent.solid (m.log.intentsAfter mark.index)) m.nodes

/-- Whenever a memoized rule matches it logs something, so that a call with a label builds a node. -/
def MatchesBuild (input : Input) (make : Node τ → τ) (rules : ρ → Expr ρ) (layout : Layout ρ) :
    Prop :=
  ∀ point rule pos stop logged, layout.memoized point = some rule →
    Derives input make true rules (rules rule) pos (some (stop, logged)) → logged ≠ []

structure Setting (ρ τ : Type) where
  task : Task Unit τ
  rules : ρ → Expr ρ
  layout : Layout ρ
  make : Node τ → τ
  building : Bool
  place : InstId
  start : Machine Unit τ
  factory : task.factory = .ofFunction make
  laid : RuleCode task.program layout rules

namespace Setting

section

variable (s : Setting ρ τ)

abbrev Yields (e : Expr ρ) (pos : Nat) (result : Result τ) : Prop :=
  Derives s.task.input s.make s.building s.rules e pos result

abbrev node? (intents : List (Intent τ)) : Option τ :=
  TreeLog.nodeOf (.ofFunction s.make) intents ()

/-- No vacant links: nothing is memoized, or no match without a node. -/
def Exact : Prop :=
  s.start.memo.store = .disabled ∨ MatchesBuild s.task.input s.make s.rules s.layout

def Alike : Prop :=
  ∀ target m, Reaches s.task s.place s.start target m → BuildsAlike s.task target m

/-- What a run logged is what the derivation logs. -/
structure Reads (added logged : List (Intent τ)) : Prop where
  exact : s.Exact → added = logged
  alike : s.Alike → Intent.solid added = logged

def Knows (rule : ρ) (pos : Nat) (entry : MemoEntry τ) : Prop :=
  match entry.failed with
  | true => s.Yields (s.rules rule) pos none
  | false => ∃ logged, s.Yields (s.rules rule) pos (some (pos + entry.consumed, logged)) ∧
      (s.building = true → s.Exact ∨ s.Alike → entry.result = s.node? logged)

structure Faithful (m : Machine Unit τ) : Prop where
  bare : s.start.memo.store = .disabled → m.memo.store = .disabled
  knows : ∀ pos point rule entry, s.layout.memoized point = some rule →
    (m.memo.find pos point none).1 = some entry → s.Knows rule pos entry

structure Sound (place : InstId) (m : Machine Unit τ) : Prop where
  reached : Reaches s.task s.place s.start place m
  chained : m.Chained
  layout : ∃ live free, m.log.Layout live free
  enabled : m.log.enabled = s.building
  faithful : s.Faithful m

structure Arrives (m : Machine Unit τ) (stop : Nat) (logged : List (Intent τ))
    (m' : Machine Unit τ) : Prop where
  pos : m'.pos = stop
  same : SameStack m m'
  logs : ∃ added, m.log.Extends m'.log added ∧ s.Reads added logged
  faithful : s.Faithful m'

def Falls (m : Machine Unit τ) (target : InstId) (m' : Machine Unit τ) : Prop :=
  ∃ failing added, SameStack m failing ∧ m.log.Extends failing.log added ∧
    Unwinds failing target m' ∧ s.Faithful m'

def Performs (place : InstId) (start m : Machine Unit τ) (k : InstId) : (result : Result τ) → Prop
  | some (stop, logged) => ∃ m', Reaches s.task place start k m' ∧ s.Arrives m stop logged m'
  | none => ∃ target m', Reaches s.task place start target m' ∧ s.Falls m target m'

def Follows (e : Expr ρ) (pos : Nat) (result : Result τ) : Prop :=
  ∀ place k (m : Machine Unit τ), TreeCode s.task.program s.layout e place k → m.pos = pos →
    s.Sound place m → s.Performs place m m k result

def Loops (body : Expr ρ) (pos : Nat) (result : Result τ) : Prop :=
  ∀ top again stop k (m : Machine Unit τ), TreeCode s.task.program s.layout body top again →
    Meets s.task.program again (.control .step) top → Leads s.task.program stop k → m.pos = pos →
    m.Chained → s.Sound top (m.pushChoice stop) → s.Performs top (m.pushChoice stop) m k result

end

variable {s : Setting ρ τ} {place place' k target : InstId} {start start' m m₁ m' : Machine Unit τ}
  {pos middle stop : Nat} {added added' logged logged' : List (Intent τ)} {result : Result τ}

/-! ### Reading -/

theorem reads_nil : s.Reads [] [] := ⟨fun _ => rfl, fun _ => rfl⟩

theorem Reads.append (first : s.Reads added logged) (second : s.Reads added' logged') :
    s.Reads (added ++ added') (logged ++ logged') := by
  constructor
  · intro exact
    rw [first.exact exact, second.exact exact]
  · intro alike
    rw [Intent.solid_append, first.alike alike, second.alike alike]

theorem reads_full (full : ∀ intent ∈ logged, intent.isVacant = false) : s.Reads logged logged :=
  ⟨fun _ => rfl, fun _ => Intent.solid_eq full⟩

theorem behind_nil (result : Result τ) : result.behind [] = result := by
  cases result <;> rfl

/-! ### Joining paths -/

theorem Faithful.keep (faithful : s.Faithful m)
    (store : m'.memo.store = m.memo.store) : s.Faithful m' := by
  refine ⟨fun bare => store.trans (faithful.bare bare), ?_⟩
  intro pos point rule entry memoized found
  refine faithful.knows pos point rule entry memoized ?_
  unfold MemoTable.find at found ⊢
  rw [store] at found
  exact found

theorem Faithful.record {point : MemoId} {rule : ρ} {entry : MemoEntry τ}
    (faithful : s.Faithful m) (memoized : s.layout.memoized point = some rule)
    (knows : s.Knows rule pos entry) :
    s.Faithful { m with memo := m.memo.record pos point entry } := by
  refine ⟨fun bare => MemoTable.record_disabled (faithful.bare bare) pos point entry, ?_⟩
  intro pos' point' rule' entry' memoized' found
  rcases MemoTable.find_record found with ⟨rfl, rfl, rfl⟩ | before
  · rw [memoized] at memoized'
    cases memoized'
    exact knows
  · exact faithful.knows pos' point' rule' entry' memoized' before

theorem Sound.move (sound : s.Sound place m) (path : Reaches s.task place m place' m')
    (chained : m'.Chained) (log : m'.log = m.log) (memo : m'.memo.store = m.memo.store) :
    s.Sound place' m' := by
  refine ⟨sound.reached.trans path, chained, ?_, ?_, sound.faithful.keep memo⟩
  · rw [log]
    exact sound.layout
  · rw [log]
    exact sound.enabled

theorem Sound.arrive (sound : s.Sound place m) (path : Reaches s.task place m k m')
    (arrives : s.Arrives m stop logged m') : s.Sound k m' := by
  obtain ⟨live, free, layout⟩ := sound.layout
  obtain ⟨added, grows, _⟩ := arrives.logs
  obtain ⟨more, free', grown, _⟩ := grows.2 live free layout
  exact ⟨sound.reached.trans path, sound.chained.same arrives.same, ⟨_, _, grown⟩,
    grows.1.trans sound.enabled, arrives.faithful⟩

theorem Arrives.refl (faithful : s.Faithful m) : s.Arrives m m.pos [] m :=
  ⟨rfl, ⟨rfl, rfl⟩, ⟨[], .refl m.log, reads_nil⟩, faithful⟩

theorem Arrives.trans (first : s.Arrives m middle logged m₁)
    (second : s.Arrives m₁ stop logged' m') : s.Arrives m stop (logged ++ logged') m' := by
  obtain ⟨added, grows, reads⟩ := first.logs
  obtain ⟨added', grows', reads'⟩ := second.logs
  exact ⟨second.pos, first.same.trans second.same,
    ⟨added ++ added', grows.trans grows', reads.append reads'⟩, second.faithful⟩

theorem Falls.after (arrives : s.Arrives m middle logged m₁) (falls : s.Falls m₁ target m') :
    s.Falls m target m' := by
  obtain ⟨added, grows, _⟩ := arrives.logs
  obtain ⟨failing, added', same, grows', unwinds, faithful⟩ := falls
  exact ⟨failing, added ++ added', arrives.same.trans same, grows.trans grows', unwinds, faithful⟩

theorem Performs.before (path : Reaches s.task place start place' start')
    (rest : s.Performs place' start' m k result) : s.Performs place start m k result := by
  cases result with
  | some success =>
      obtain ⟨m', path', arrives⟩ := rest
      exact ⟨m', path.trans path', arrives⟩
  | none =>
      obtain ⟨target, m', path', falls⟩ := rest
      exact ⟨target, m', path.trans path', falls⟩

/-- What follows a success is seen from the state before it. -/
theorem Performs.after (arrives : s.Arrives m middle logged m₁)
    (rest : s.Performs place start m₁ k result) :
    s.Performs place start m k (result.behind logged) := by
  cases result with
  | some success =>
      obtain ⟨m', path, arrives'⟩ := rest
      exact ⟨m', path, arrives.trans arrives'⟩
  | none =>
      obtain ⟨target, m', path, falls⟩ := rest
      exact ⟨target, m', path, falls.after arrives⟩

theorem Arrives.fails {op : Op InstId} {next : InstId} {failing : Machine Unit τ}
    (arrives : s.Arrives m stop logged m₁) (meets : Meets s.task.program place op next)
    (fails : ∀ place next, m₁.exec s.task place ⟨op, next⟩ = .fail failing) (chained : m.Chained)
    (same : SameStack m₁ failing) (log : failing.log = m₁.log) (faithful : s.Faithful failing) :
    s.Performs place m₁ m k none := by
  obtain ⟨added, grows, _⟩ := arrives.logs
  have stack := arrives.same.trans same
  obtain ⟨target, m', path, unwinds, _, memo⟩ :=
    Machine.reaches_of_fail meets fails (chained.same stack)
  refine ⟨target, m', path, failing, added, stack, ?_, unwinds, faithful.keep (by rw [memo])⟩
  rw [log]
  exact grows

/-! ### Frames and alternatives -/

/-- Failing under a choice point leads to the state that pushed it. -/
theorem Falls.resumed {failure : InstId} (falls : s.Falls (m.pushChoice failure) target m') :
    target = failure ∧ s.Arrives m m.pos [] m' := by
  obtain ⟨failing, added, under, grows, unwinds, faithful⟩ := falls
  obtain ⟨same, pos, stack, log, _⟩ := Unwinds.fresh under unwinds
  refine ⟨same, pos, stack, ⟨[], ?_, reads_nil⟩, faithful⟩
  rw [log]
  exact grows.abort

theorem Arrives.leave (arrives : s.Arrives m₁ stop logged m') (log : m₁.log = m.log) :
    s.Arrives m stop logged (m'.withStack m) := by
  obtain ⟨added, grows, reads⟩ := arrives.logs
  rw [log] at grows
  exact ⟨arrives.pos, ⟨rfl, rfl⟩, ⟨added, grows, reads⟩, arrives.faithful.keep rfl⟩

theorem Falls.pop {frame : Frame} (chained : m.Chained) (falls : s.Falls (m.push frame) target m') :
    s.Falls m target m' := by
  obtain ⟨failing, added, under, grows, unwinds, faithful⟩ := falls
  let below := failing.withStack m
  have same : Machine.SameUndo (below.push frame) failing :=
    ⟨⟨under.frames, under.catchIndex⟩, rfl, rfl⟩
  have fails := Unwinds.below (m := below) (chained.same ⟨rfl, rfl⟩) (unwinds.congr same)
  exact ⟨below, added, ⟨rfl, rfl⟩, grows, fails, faithful⟩

end Setting

end Packrat.TreePeg
