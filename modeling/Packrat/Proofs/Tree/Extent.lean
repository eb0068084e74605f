/-
The extent of nodes. A node takes its span from the positions in the intents that it is built from, so
a bound on these is one on the spans of all nodes that a factory is handed.

What the factory makes of such nodes, and the state that it keeps, may satisfy conditions of their own
for as long as it is handed no other nodes.
-/

import Packrat.Tree.Log

namespace Packrat

variable {σ τ : Type} {bound : Nat} {Good : τ → Prop} {Sound : σ → Prop}

/-! ### Nodes and factories -/

/-- A node ends inside a bound on both sides, and its children satisfy a condition. -/
structure Node.Within (bound : Nat) (Good : τ → Prop) (node : Node τ) : Prop where
  start : node.start ≤ bound
  stop : node.stop ≤ bound
  children : ∀ child ∈ node.children, Good child.2

/-- Handed nodes inside a bound only, a factory keeps a condition on what it makes and one on its
state. -/
def TreeFactory.Keeps (bound : Nat) (Good : τ → Prop) (Sound : σ → Prop)
    (factory : TreeFactory σ τ) : Prop :=
  ∀ node state, node.Within bound Good → Sound state →
    Good (factory.make node state).1 ∧ Sound (factory.make node state).2

namespace Intent

def position? : Intent τ → Option Nat
  | .begin pos => some pos
  | .capture pos => some pos
  | .leftFold pos _ => some pos
  | _ => none

def child? : Intent τ → Option τ
  | .link _ child => child
  | _ => none

structure Within (bound : Nat) (Good : τ → Prop) (intent : Intent τ) : Prop where
  placed : ∀ pos, intent.position? = some pos → pos ≤ bound
  attached : ∀ child, intent.child? = some child → Good child

end Intent

/-! ### Building -/

namespace Scope

theorem within_fresh {pos : Nat} (inside : pos ≤ bound) :
    (fresh pos : Scope τ).node.Within bound Good :=
  ⟨inside, inside, fun _ member => by cases member⟩

theorem within_opening {intents : List (Intent τ)}
    (within : ∀ intent ∈ intents, intent.Within bound Good) :
    (opening intents).node.Within bound Good := by
  cases intents with
  | nil => exact within_fresh (Nat.zero_le bound)
  | cons intent rest =>
      apply within_fresh
      have first := within intent List.mem_cons_self
      cases intent with
      | begin pos => exact first.placed pos rfl
      | capture pos => exact first.placed pos rfl
      | leftFold pos label => exact first.placed pos rfl
      | tag | replace | push | pop | link => exact Nat.zero_le bound

theorem within_attach {scope : Scope τ} (within : scope.node.Within bound Good) {child : τ}
    (good : Good child) (label : Symbol) : (scope.attach label child).node.Within bound Good := by
  refine ⟨within.start, within.stop, fun other member => ?_⟩
  unfold Scope.attach Scope.node at member
  rw [Array.toList_push, List.mem_append] at member
  rcases member with before | last
  · exact within.children other before
  · rw [List.mem_singleton.mp last]
    exact good

end Scope

namespace Intent

variable {factory : TreeFactory σ τ} (keeps : factory.Keeps bound Good Sound)

include keeps

theorem closeAll_within {outer : List (Scope τ)} {scope : Scope τ} {state : σ}
    (within : scope.node.Within bound Good) (around : ∀ scope ∈ outer, scope.node.Within bound Good)
    (sound : Sound state) :
    Good (closeAll factory scope state outer).1 ∧ Sound (closeAll factory scope state outer).2 := by
  induction outer generalizing scope state with
  | nil => exact keeps scope.node state within sound
  | cons parent outer ih =>
      obtain ⟨good, sound⟩ := keeps scope.node state within sound
      have attached := Scope.within_attach (around parent List.mem_cons_self) good .null
      exact ih attached (fun other member => around other (List.mem_cons_of_mem _ member)) sound

/-- Building hands the factory nodes inside the bound only. The induction is on the intents; the
scopes around the innermost one come in again where it is closed. -/
theorem build_within {intents : List (Intent τ)} {scope : Scope τ} {outer : List (Scope τ)}
    {state : σ} (logged : ∀ intent ∈ intents, intent.Within bound Good)
    (within : scope.node.Within bound Good) (around : ∀ scope ∈ outer, scope.node.Within bound Good)
    (sound : Sound state) :
    Good (build factory intents scope outer state).1.node ∧
      Sound (build factory intents scope outer state).2 := by
  induction intents generalizing scope outer state with
  | nil => exact closeAll_within keeps within around sound
  | cons intent rest ih =>
      have first := logged intent List.mem_cons_self
      have later : ∀ intent ∈ rest, intent.Within bound Good :=
        fun other member => logged other (List.mem_cons_of_mem intent member)
      cases intent with
      | begin pos => exact ih later (Scope.within_fresh (first.placed pos rfl)) around sound
      | capture pos =>
          exact ih later ⟨within.start, first.placed pos rfl, within.children⟩ around sound
      | tag | replace =>
          exact ih later ⟨within.start, within.stop, within.children⟩ around sound
      | leftFold pos label =>
          obtain ⟨good, sound⟩ := keeps scope.node state within sound
          have opened : (⟨.null, pos, scope.stop, #[(label, (factory.make scope.node state).1)],
              none⟩ : Scope τ).node.Within bound Good := by
            refine ⟨first.placed pos rfl, within.stop, fun child member => ?_⟩
            rw [List.mem_singleton.mp member]
            exact good
          exact ih later opened around sound
      | push =>
          refine ih later (Scope.within_opening later) (fun other member => ?_) sound
          rcases List.mem_cons.mp member with rfl | member
          · exact within
          · exact around other member
      | pop label =>
          obtain ⟨good, sound⟩ := keeps scope.node state within sound
          cases outer with
          | nil => exact ⟨good, sound⟩
          | cons parent outer =>
              have attached := Scope.within_attach (around parent List.mem_cons_self) good label
              have further : ∀ scope ∈ outer, scope.node.Within bound Good :=
                fun other member => around other (List.mem_cons_of_mem parent member)
              exact ih later attached further sound
      | link label child =>
          cases child with
          | none => exact ih later within around sound
          | some child =>
              exact ih later (Scope.within_attach within (first.attached child rfl) label) around sound

theorem construct_within {intents : List (Intent τ)} {state : σ}
    (logged : ∀ intent ∈ intents, intent.Within bound Good) (sound : Sound state) :
    Good (construct factory intents state).1.node ∧ Sound (construct factory intents state).2 :=
  build_within keeps logged (Scope.within_opening logged) (fun _ member => by cases member) sound

theorem result_within {intents : List (Intent τ)} {state : σ} {start stop : Nat}
    (logged : ∀ intent ∈ intents, intent.Within bound Good) (inside : start ≤ bound)
    (inside' : stop ≤ bound) (sound : Sound state) :
    Good (result factory start stop intents state).1 ∧
      Sound (result factory start stop intents state).2 := by
  unfold result
  cases begun : intents.dropWhile fun intent => !intent.isBegin with
  | nil => exact keeps _ state ⟨inside, inside', fun _ member => by cases member⟩ sound
  | cons first rest =>
      refine construct_within keeps (fun intent member => ?_) sound
      rw [← begun] at member
      exact logged intent ((List.dropWhile_sublist _).subset member)

end Intent

/-! ### Logs -/

def EntriesWithin (bound : Nat) (Good : τ → Prop) (entries : Array (LogEntry τ)) : Prop :=
  ∀ (index : Nat) (entry : LogEntry τ) (intent : Intent τ), entries[index]? = some entry →
    entry.intent = some intent → intent.Within bound Good

theorem EntriesWithin.linkEntry {entries : Array (LogEntry τ)}
    (within : EntriesWithin bound Good entries) (place : Nat) (next : Option Nat) :
    EntriesWithin bound Good (TreeLog.linkEntry entries place next) := by
  intro index entry intent found logged
  unfold TreeLog.linkEntry at found
  rw [Array.getElem?_modify] at found
  split at found
  · obtain ⟨before, held, rfl⟩ := Option.map_eq_some_iff.mp found
    exact within index before intent held logged
  · exact within index entry intent found logged

namespace TreeLog

/-- What is logged is inside a bound, given up entries included, and the node attached last satisfies
a condition. -/
structure Within (bound : Nat) (Good : τ → Prop) (log : TreeLog τ) : Prop where
  entries : EntriesWithin bound Good log.entries
  latest : ∀ node, log.latestLinked = some node → Good node

namespace Within

variable {log : TreeLog τ}

theorem new (enabled : Bool) : (TreeLog.new enabled : TreeLog τ).Within bound Good := by
  constructor
  · intro index entry intent found logged
    have same : entry = head := List.mem_singleton.mp (Array.mem_of_getElem? found).1
    rw [same] at logged
    cases logged
  · intro node latest
    cases latest

theorem follow {entries : Array (LogEntry τ)} (within : EntriesWithin bound Good entries)
    (fuel : Nat) (start : Option Nat) :
    ∀ intent ∈ TreeLog.follow entries fuel start, intent.Within bound Good := by
  induction fuel generalizing start with
  | zero => exact fun _ member => by cases member
  | succ fuel ih =>
      cases start with
      | none => exact fun _ member => by cases member
      | some index =>
          intro intent member
          rw [TreeLog.follow] at member
          cases found : entries[index]? with
          | none =>
              rw [found] at member
              cases member
          | some entry =>
              cases logged : entry.intent with
              | none =>
                  simp only [found, logged] at member
                  exact ih entry.next intent member
              | some first =>
                  simp only [found, logged] at member
                  rcases List.mem_cons.mp member with rfl | later
                  · exact within index entry intent found logged
                  · exact ih entry.next intent later

theorem intentsAfter (within : log.Within bound Good) (index : Nat) :
    ∀ intent ∈ log.intentsAfter index, intent.Within bound Good :=
  follow within.entries _ _

theorem append (within : log.Within bound Good) {intent : Intent τ}
    (inside : intent.Within bound Good) : (log.append intent).Within bound Good := by
  have added (index : Nat) (entry : LogEntry τ) (other : Intent τ)
      (found : (⟨log.length + 1, some intent, none⟩ : LogEntry τ) = entry)
      (logged : entry.intent = some other) : other.Within bound Good := by
    subst found
    cases logged
    exact inside
  unfold TreeLog.append
  split
  · cases log.free with
    | none =>
        refine ⟨.linkEntry (fun index entry other found logged => ?_) _ _, within.latest⟩
        rw [Array.getElem?_push] at found
        split at found
        · exact added index entry other (Option.some.inj found) logged
        · exact within.entries index entry other found logged
    | some place =>
        refine ⟨.linkEntry (fun index entry other found logged => ?_) _ _, within.latest⟩
        rw [Array.getElem?_setIfInBounds] at found
        split at found
        · split at found
          · exact added index entry other (Option.some.inj found) logged
          · cases found
        · exact within.entries index entry other found logged
  · exact within

theorem link (within : log.Within bound Good) (label : Symbol) {child : Option τ}
    (good : ∀ node, child = some node → Good node) : (log.link label child).Within bound Good := by
  unfold TreeLog.link
  split
  · have latest : ({ log with latestLinked := child } : TreeLog τ).Within bound Good :=
      ⟨within.entries, good⟩
    refine latest.append ⟨fun pos placed => ?_, good⟩
    cases placed
  · exact within

theorem abort (within : log.Within bound Good) (mark : LogMark) :
    (log.abort mark).Within bound Good := by
  unfold TreeLog.abort
  split
  · exact within
  · exact ⟨(within.entries.linkEntry _ _).linkEntry _ _, within.latest⟩

variable {factory : TreeFactory σ τ} {state : σ}

theorem commit (within : log.Within bound Good) (keeps : factory.Keeps bound Good Sound)
    (mark : LogMark) (label : Symbol) (sound : Sound state) :
    (log.commit factory mark label state).1.Within bound Good ∧
      Sound (log.commit factory mark label state).2 := by
  have logged := within.intentsAfter mark.index
  unfold TreeLog.commit
  split
  · cases intents : log.intentsAfter mark.index with
    | nil => exact ⟨⟨(within.abort mark).entries, fun node latest => by cases latest⟩, sound⟩
    | cons first rest =>
        rw [intents] at logged
        obtain ⟨good, sound⟩ := Intent.construct_within keeps logged sound
        refine ⟨(within.abort mark).link label fun node same => ?_, sound⟩
        cases same
        exact good
  · exact ⟨within, sound⟩

theorem parseResult (within : log.Within bound Good) (keeps : factory.Keeps bound Good Sound)
    {start stop : Nat} (inside : start ≤ bound) (inside' : stop ≤ bound) (sound : Sound state) :
    Good (log.parseResult factory start stop state).1 ∧
      Sound (log.parseResult factory start stop state).2.2 :=
  Intent.result_within keeps (within.intentsAfter 0) inside inside' sound

end Within

end TreeLog

end Packrat
