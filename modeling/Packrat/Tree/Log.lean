/-
The log of tree construction. Entries live in one arena and are chained by their places. Undoing
splices the end of the chain onto a list of free entries in constant time, and new entries take their
place from that list first. Live entries are numbered from the head, so the number of the last one is
the length of the log, and a mark of an entry that was given up is told by its number.
-/

import Packrat.Tree.Intent

namespace Packrat

structure LogEntry (τ : Type) where
  /-- The number of the entry in its chain; zero for the head. -/
  number : Nat
  /-- What is logged; nothing for the head. -/
  intent : Option (Intent τ)
  /-- The entry that follows, in the chain of live entries or among the free ones. -/
  next : Option Nat
deriving DecidableEq, Repr

/-- A state of the log to return to: its last entry, by place and by number. -/
structure LogMark where
  index : Nat
  number : Nat
deriving DecidableEq, Repr, Inhabited

/-- The log: its arena, the place of the last live entry, the first free entry and the number of
free ones, the node attached last, and whether anything is logged at all. -/
structure TreeLog (τ : Type) where
  entries : Array (LogEntry τ)
  last : Nat
  free : Option Nat
  freeLength : Nat
  latestLinked : Option τ
  enabled : Bool

namespace TreeLog

variable {σ τ : Type}

def head : LogEntry τ := ⟨0, none, none⟩

def new (enabled : Bool) : TreeLog τ := ⟨#[head], 0, none, 0, none, enabled⟩

instance : Inhabited (TreeLog τ) := ⟨new true⟩

/-! ### Reading -/

def entry (log : TreeLog τ) (index : Nat) : LogEntry τ := log.entries.getD index head

def length (log : TreeLog τ) : Nat := (log.entry log.last).number

def isEmpty (log : TreeLog τ) : Bool := log.length == 0

def follow (entries : Array (LogEntry τ)) : (fuel : Nat) → Option Nat → List (Intent τ)
  | 0, _ => []
  | _ + 1, none => []
  | fuel + 1, some index =>
    match entries[index]? with
    | none => []
    | some entry =>
      match entry.intent with
      | none => follow entries fuel entry.next
      | some intent => intent :: follow entries fuel entry.next

/-- The intents after an entry. A chain visits no entry twice, so it is no longer than the arena. -/
def intentsAfter (log : TreeLog τ) (index : Nat) : List (Intent τ) :=
  follow log.entries log.entries.size (log.entry index).next

def intents (log : TreeLog τ) : List (Intent τ) := log.intentsAfter 0

/-! ### Logging -/

def linkEntry (entries : Array (LogEntry τ)) (index : Nat) (next : Option Nat) :
    Array (LogEntry τ) :=
  entries.modify index fun entry => { entry with next := next }

def append (log : TreeLog τ) (intent : Intent τ) : TreeLog τ :=
  if log.enabled then
    let added : LogEntry τ := ⟨log.length + 1, some intent, none⟩
    match log.free with
    | some index =>
      let free := (log.entry index).next
      { log with
        entries := linkEntry (log.entries.setIfInBounds index added) log.last (some index)
        last := index
        free := free
        freeLength := log.freeLength - 1 }
    | none =>
      let index := log.entries.size
      { log with
        entries := linkEntry (log.entries.push added) log.last (some index)
        last := index }
  else log

def link (log : TreeLog τ) (label : Symbol) (child : Option τ) : TreeLog τ :=
  if log.enabled then { log with latestLinked := child }.append (.link label child) else log

/-! ### Undoing and building -/

def mark (log : TreeLog τ) : LogMark := ⟨log.last, log.length⟩

def startMark : LogMark := ⟨0, 0⟩

def abort (log : TreeLog τ) (mark : LogMark) : TreeLog τ :=
  if mark.index = log.last then log
  else
    let dropped := log.length - mark.number
    let free := (log.entry mark.index).next
    { log with
      entries := linkEntry (linkEntry log.entries log.last log.free) mark.index none
      last := mark.index
      free := free
      freeLength := log.freeLength + dropped }

/-- Build the entries after the mark into one node, give them up and attach the node. Without such
entries nothing is attached, and no node is the latest. -/
def commit (factory : TreeFactory σ τ) (log : TreeLog τ) (mark : LogMark) (label : Symbol)
    (state : σ) : TreeLog τ × σ :=
  if log.enabled then
    match log.intentsAfter mark.index with
    | [] => ({ log.abort mark with latestLinked := none }, state)
    | first :: rest =>
      let (built, state) := Intent.construct factory (first :: rest) state
      ((log.abort mark).link label (some built.node), state)
  else (log, state)

def parseResult (factory : TreeFactory σ τ) (log : TreeLog τ) (start stop : Nat) (state : σ) :
    τ × TreeLog τ × σ :=
  let (tree, state) := Intent.result factory start stop log.intents state
  (tree, log.abort startMark, state)

end TreeLog

end Packrat
