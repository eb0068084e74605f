/-
Giving up what was logged since a mark. Whatever changes a log went through in between, as long as none of
them went back below the mark, the intents that were live at the mark are brought back. The node that was
attached last is kept beside the entries and is not brought back: it stays the one of the last change that
attached a node or found none to build.
-/

import Packrat.Parser
import Packrat.Proofs.Machine.Execution
import Packrat.Proofs.Tree.Refinement

namespace Packrat.TreeLog

variable {σ τ : Type}

/-! ### Histories -/

inductive Change (τ : Type) where
  | append (intent : Intent τ)
  | link (label : Symbol) (child : Option τ)
  | abort (mark : LogMark)
  | commit (mark : LogMark) (label : Symbol)
  | parseResult (start stop : Nat)
deriving DecidableEq, Repr

namespace Change

def mark? : Change τ → Option LogMark
  | .abort mark => some mark
  | .commit mark _ => some mark
  | .parseResult _ _ => some startMark
  | _ => none

def settles : Change τ → Bool
  | .link _ _ => true
  | .commit _ _ => true
  | _ => false

def apply (factory : TreeFactory σ τ) (change : Change τ) (log : TreeLog τ) (nodes : σ) :
    TreeLog τ × σ :=
  match change with
  | .append intent => (log.append intent, nodes)
  | .link label child => (log.link label child, nodes)
  | .abort mark => (log.abort mark, nodes)
  | .commit mark label => log.commit factory mark label nodes
  | .parseResult start stop => (log.parseResult factory start stop nodes).2

end Change

/-- A log goes through changes. Each of them goes back to a mark that is live, and to none with a number
below the floor. -/
inductive History (factory : TreeFactory σ τ) (floor : Nat) (log : TreeLog τ) (nodes : σ) :
    List (Change τ) → TreeLog τ → σ → Prop
  | start : History factory floor log nodes [] log nodes
  | next {changes : List (Change τ)} {log' : TreeLog τ} {nodes' : σ}
      (before : History factory floor log nodes changes log' nodes') (change : Change τ)
      (live : ∀ mark, change.mark? = some mark → log'.Live mark ∧ floor ≤ mark.number) :
      History factory floor log nodes (changes ++ [change])
        (change.apply factory log' nodes').1 (change.apply factory log' nodes').2

/-! ### Marks that are live -/

theorem Linked.next_mem {entries : Array (LogEntry τ)} {start : Option Nat} {places : List Nat}
    (linked : Linked entries start places none) {place next : Nat} (member : place ∈ places)
    {entry : LogEntry τ} (found : entries[place]? = some entry) (leads : entry.next = some next) :
    next ∈ places := by
  induction places generalizing start with
  | nil => cases member
  | cons first rest ih =>
      obtain ⟨_, entry', found', linked⟩ := linked
      rcases List.mem_cons.mp member with rfl | member
      · rw [found'] at found
        cases found
        cases rest with
        | nil =>
            rw [show entry.next = none from linked] at leads
            cases leads
        | cons second rest =>
            have same : entry.next = some second := linked.1
            rw [leads, Option.some.injEq] at same
            rw [same]
            exact List.mem_cons_of_mem place List.mem_cons_self
      · exact List.mem_cons_of_mem first (ih linked member)

theorem Layout.mem_of_onChain {log : TreeLog τ} {live : List (Nat × Intent τ)} {free : List Nat}
    (layout : Layout log live free) {place : Nat} (chained : OnChain log place) :
    place ∈ places live := by
  induction chained with
  | head => exact List.mem_cons_self
  | @next place next _ leads ih =>
      have within : place < log.entries.size := layout.chain.within place ih
      have found : log.entries[place]? = some log.entries[place] := Array.getElem?_eq_getElem within
      rw [Layout.entry_eq found] at leads
      exact layout.chain.next_mem ih found leads

/-- A live mark is that of the entry with its number. -/
theorem Layout.marks_of_live {log : TreeLog τ} {live : List (Nat × Intent τ)} {free : List Nat}
    {mark : LogMark} (layout : Layout log live free) (alive : Live log mark) :
    MarksLive live mark := by
  obtain ⟨number, found⟩ := List.getElem?_of_mem (layout.mem_of_onChain alive.chained)
  have numbered := layout.number_at found
  rw [alive.number] at numbered
  unfold MarksLive
  rw [numbered]
  exact found

/-! ### What a history keeps -/

section Kept

variable {factory : TreeFactory σ τ} {floor : Nat} {log log' : TreeLog τ} {nodes nodes' : σ}
  {live more : List (Nat × Intent τ)} {free : List Nat} {mark : LogMark} {changes : List (Change τ)}

/-- The entries up to a floor are kept where the log is cut above it. -/
theorem take_above (live more : List (Nat × Intent τ)) (above : floor ≤ mark.number) :
    ∃ rest, (live.take floor ++ more).take mark.number = live.take floor ++ rest := by
  have short : (live.take floor).length ≤ mark.number :=
    Nat.le_trans (List.length_take_le floor live) above
  refine ⟨more.take (mark.number - (live.take floor).length), ?_⟩
  rw [List.take_append, List.take_of_length_le short]

theorem Layout.change (layout : Layout log (live.take floor ++ more) free) (change : Change τ)
    (alive : ∀ mark, change.mark? = some mark → log.Live mark ∧ floor ≤ mark.number) (nodes : σ) :
    ∃ more' free', Layout (change.apply factory log nodes).1 (live.take floor ++ more') free' := by
  cases change with
  | append intent =>
      obtain ⟨added, free', grown, _⟩ := layout.append intent
      rw [List.append_assoc] at grown
      exact ⟨more ++ added, free', grown⟩
  | link label child =>
      obtain ⟨added, free', grown, _⟩ := layout.link label child
      rw [List.append_assoc] at grown
      exact ⟨more ++ added, free', grown⟩
  | abort mark =>
      obtain ⟨alive, above⟩ := alive mark rfl
      obtain ⟨free', aborted⟩ := layout.abort (layout.marks_of_live alive)
      obtain ⟨rest, kept⟩ := take_above live more above
      rw [kept] at aborted
      exact ⟨rest, free', aborted⟩
  | commit mark label =>
      cases enabled : log.enabled with
      | false =>
          have idle : log.commit factory mark label nodes = (log, nodes) := by
            simp only [TreeLog.commit, enabled, Bool.false_eq_true, if_false]
          refine ⟨more, free, ?_⟩
          change Layout (log.commit factory mark label nodes).1 _ free
          rw [idle]
          exact layout
      | true =>
          obtain ⟨alive, above⟩ := alive mark rfl
          obtain ⟨added, free', built, _⟩ :=
            layout.commit (layout.marks_of_live alive) enabled factory label nodes
          obtain ⟨rest, kept⟩ := take_above live more above
          rw [kept, List.append_assoc] at built
          exact ⟨rest ++ added, free', built⟩
  | parseResult start stop =>
      obtain ⟨alive, above⟩ := alive startMark rfl
      obtain ⟨free', aborted⟩ := layout.abort (layout.marks_of_live alive)
      obtain ⟨rest, kept⟩ := take_above live more above
      rw [kept] at aborted
      exact ⟨rest, free', aborted⟩

theorem History.layout (history : History factory floor log nodes changes log' nodes')
    (layout : Layout log live free) :
    ∃ more free', Layout log' (live.take floor ++ more) free' := by
  induction history with
  | start =>
      refine ⟨live.drop floor, free, ?_⟩
      rw [List.take_append_drop]
      exact layout
  | next _ change alive ih =>
      obtain ⟨more, free', kept⟩ := ih
      exact kept.change change alive _

theorem History.latest (history : History factory floor log nodes changes log' nodes')
    (still : ∀ change ∈ changes, change.settles = false) : log'.latestLinked = log.latestLinked := by
  induction history with
  | start => rfl
  | @next changes log₁ nodes₁ _ change _ ih =>
      have before := ih fun other member => still other (List.mem_append_left [change] member)
      have last := still change (List.mem_append_right changes List.mem_cons_self)
      rw [← before]
      cases change with
      | append intent => exact latestLinked_append log₁ intent
      | abort mark => exact latestLinked_abort log₁ mark
      | parseResult start stop => exact latestLinked_abort log₁ startMark
      | link label child => cases last
      | commit mark label => cases last

end Kept

/-- To abort brings back the intents of the mark. After whatever history a mark is taken, and through
whatever changes the log goes that never go back below it, the mark is live, and to abort to it leaves as
many intents as there were, and the same ones. The node attached last stays that of the log that is
aborted; it is the one of the mark if no change since attached a node or looked for one to build. -/
theorem abort_brings_back (factory : TreeFactory σ τ) (enabled : Bool) {nodes nodes₁ nodes₂ : σ}
    {before since : List (Change τ)} {log log' : TreeLog τ}
    (history : History factory 0 (.new enabled) nodes before log nodes₁)
    (further : History factory log.length log nodes₁ since log' nodes₂) :
    log'.Live log.mark ∧ (log'.abort log.mark).length = log.length ∧
      (log'.abort log.mark).intents = log.intents ∧
      (log'.abort log.mark).latestLinked = log'.latestLinked ∧
      ((∀ change ∈ since, change.settles = false) →
        (log'.abort log.mark).latestLinked = log.latestLinked) := by
  obtain ⟨live, free, layout⟩ := history.layout (layout_new enabled)
  rw [List.take_nil, List.nil_append] at layout
  obtain ⟨more, free', grown⟩ := further.layout layout
  have number : log.mark.number = live.length := layout.length_eq
  have marks : MarksLive (live ++ more) log.mark := by
    have kept := layout.mark_live.keep (Nat.le_of_eq number) more
    rw [List.take_length] at kept
    exact kept
  rw [layout.length_eq, List.take_length] at grown
  obtain ⟨free'', aborted⟩ := grown.abort marks
  rw [number, List.take_left] at aborted
  have latest := latestLinked_abort log' log.mark
  refine ⟨grown.live_of_marks marks, ?_, ?_, latest, fun still => latest.trans (further.latest still)⟩
  · rw [aborted.length_eq, layout.length_eq]
  · rw [aborted.intents_eq, layout.intents_eq]

/-- A node is attached after the mark, and an entry beyond it is given up and used again. -/
theorem abort_brings_back_branch :
    let log : TreeLog Nat := (TreeLog.new true).append (.begin 0)
    let log' := (((log.append (.capture 1)).append .push).abort ⟨2, 2⟩).link .null (some 0)
    log'.Live log.mark ∧ (log'.abort log.mark).length = 1 ∧
      (log'.abort log.mark).intents = [.begin 0] ∧
      (log'.abort log.mark).latestLinked = some 0 := by
  intro log log'
  let grown := (log.append (.capture 1)).append .push
  have history : History TreeFactory.recording 0 (.new true) #[] _ log #[] :=
    .next .start (.append (.begin 0)) nofun
  have opened : History TreeFactory.recording log.length log #[] _ grown #[] :=
    .next (.next .start (.append (.capture 1)) nofun) (.append .push) nofun
  have inner : grown.Live ⟨2, 2⟩ ∧ log.length ≤ 2 := by
    refine ⟨⟨rfl, .next (.next .head rfl) rfl⟩, ?_⟩
    decide
  have cut : History TreeFactory.recording log.length log #[] _ (grown.abort ⟨2, 2⟩) #[] :=
    .next opened (.abort ⟨2, 2⟩) fun mark same => by cases same; exact inner
  have further : History TreeFactory.recording log.length log #[] _ log' #[] :=
    .next cut (.link .null (some 0)) nofun
  obtain ⟨alive, length, intents, latest, _⟩ :=
    abort_brings_back TreeFactory.recording true history further
  exact ⟨alive, length, intents, latest⟩

end Packrat.TreeLog

namespace Packrat.Machine

/-- Code whose rule attaches a node on a branch that it gives up, and then matches and is memoized. -/
def leakyRule : Program where
  insts := #[⟨.control (.exit false), .exitFail⟩, ⟨.control (.exit true), .exitOk⟩,
    ⟨.control (.alt .exitFail), ⟨3⟩⟩, ⟨.control (.alt ⟨8⟩), ⟨4⟩⟩, ⟨.tree .checkpoint, ⟨5⟩⟩,
    ⟨.tree (.tag ⟨1⟩), ⟨6⟩⟩, ⟨.tree (.emit ⟨2⟩), ⟨7⟩⟩, ⟨.control .fail, .exitFail⟩,
    ⟨.memo (.treeStore ⟨0⟩), .exitOk⟩]
  sets := .empty
  literals := .empty
  dispatch := #[]
  memoPoints := #[⟨⟨1⟩, true, false⟩]
  symbols := .initial
  start := ⟨2⟩

/-- The node attached last is not brought back. A log without a node attached remembers the one that was
attached after the mark when it is back at the mark; and a run that has given up the branch on which it
attached a node, so that nothing is logged any more, records this node as the result of the rule. -/
theorem latest_survives_abort :
    (let log : TreeLog Nat := .new true
    let log' := log.link .null (some 0)
    TreeLog.History TreeFactory.recording log.length log #[] [.link .null (some 0)] log' #[] ∧
      log.latestLinked = none ∧ (log'.abort log.mark).latestLinked = some 0) ∧
    let task : Task Unit Tree := ⟨leakyRule, .ofBytes #[], Tree.factory⟩
    let options : Options := { Options.initial with slots := some 1 }
    ∃ past now m', Execution task options past now ∧
      leakyRule.inst? now.place = some ⟨.memo (.treeStore ⟨0⟩), .exitOk⟩ ∧
      now.machine.log.intents = [] ∧ now.machine.step task now.place = .goto .exitOk m' ∧
      ((m'.memo.find 0 ⟨0⟩ none).1.bind MemoEntry.result).isSome = true := by
  refine ⟨⟨.next .start (.link .null (some 0)) nofun, rfl, rfl⟩, ?_⟩
  intro task options
  let m₀ : Machine Unit Tree := (initial leakyRule options ()).push (.ret .exitOk)
  let m₁ := m₀.pushChoice .exitFail
  let m₂ := m₁.pushChoice ⟨8⟩
  let m₃ := m₂.push (.tree m₂.log.mark)
  let m₄ := m₃.logged fun log => log.append (.tag ⟨1⟩)
  let built := m₄.log.commit Tree.factory m₂.log.mark ⟨2⟩ ()
  let m₅ : Machine Unit Tree := { m₄.drop with log := built.1, nodes := built.2 }
  let m₆ := m₅.resume 2 ⟨⟨8⟩, 0, TreeLog.startMark, ⟨0⟩, some 1⟩
  have chosen : Execution task options _ ⟨⟨3⟩, m₁⟩ := .step (.enter ⟨2⟩ ()) rfl
  have tried : Execution task options _ ⟨⟨4⟩, m₂⟩ := .step chosen rfl
  have opened : Execution task options _ ⟨⟨5⟩, m₃⟩ := .step tried rfl
  have tagged : Execution task options _ ⟨⟨6⟩, m₄⟩ := .step opened rfl
  have attached : Execution task options _ ⟨⟨7⟩, m₅⟩ := .step tagged rfl
  have given_up : Execution task options _ ⟨⟨8⟩, m₆⟩ := .step attached rfl
  let m₇ : Machine Unit Tree :=
    { m₆.cut 1 ⟨.exitFail, 0, TreeLog.startMark, ⟨0⟩, none⟩ with
      memo := m₆.memo.record 0 ⟨0⟩ ⟨false, 0, m₆.log.latestLinked, 0⟩ }
  have recorded : m₆.step task ⟨8⟩ = .goto .exitOk m₇ := rfl
  have nothing : m₆.log.intents.isEmpty = true := by decide +kernel
  have known : ((m₇.memo.find 0 ⟨0⟩ none).1.bind MemoEntry.result).isSome = true := by decide +kernel
  exact ⟨_, ⟨⟨8⟩, m₆⟩, m₇, given_up, rfl, List.isEmpty_iff.mp nothing, recorded, known⟩

end Packrat.Machine
