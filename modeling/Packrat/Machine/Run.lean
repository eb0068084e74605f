/-
Runs. A run enters at an instruction with the way to the matching exit on the stack, and takes steps
until it halts. What a machine went through is kept from run to run, also after a fault.
-/

import Packrat.Machine.Step

namespace Packrat.Machine

variable {σ τ : Type}

/-- Take at most `fuel` steps from an instruction on; no answer if the run has not halted by then. -/
def steps (task : Task σ τ) : (fuel : Nat) → InstId → Machine σ τ → Option (Halt × Machine σ τ)
  | 0, _, _ => none
  | fuel + 1, place, m =>
    match m.step task place with
    | .halt reason m => some (reason, m)
    | .goto target m => steps task fuel target m

def tally (m : Machine σ τ) : Machine σ τ :=
  { m with
    stats := { m.stats with
      memoStored := m.memo.stored
      memoUsed := m.memo.used
      memoInvalidated := m.memo.invalidated } }

/-- Run from an instruction for at most `fuel` steps. The counters are taken over where the run ends
at an exit. -/
def run (task : Task σ τ) (fuel : Nat) (start : InstId) (m : Machine σ τ) :
    Option (Halt × Machine σ τ) :=
  match steps task fuel start (m.push (.ret .exitOk)) with
  | none => none
  | some (.exit matched, m) => some (.exit matched, m.tally)
  | some (reason, m) => some (reason, m)

/-- The report of a machine whose last run ended at an exit, with the tree of a match, and the state
that the factory is left in. -/
def outcome (task : Task σ τ) (options : Options) (matched : Bool) (m : Machine σ τ) :
    Outcome τ × σ :=
  let report (tree : Option τ) : Outcome τ :=
    ⟨matched, tree, m.pos, m.maxPosition, m.stats, options.unconsumed⟩
  if matched then
    let (tree, _, nodes) := m.log.parseResult task.factory 0 m.pos m.nodes
    (report (some tree), nodes)
  else (report none, m.nodes)

end Packrat.Machine
