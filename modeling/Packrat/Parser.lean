/-
Parsing: one run of a program over an input, from a fresh state to its report.
-/

import Packrat.Machine.Run

namespace Packrat

/-- How a parse ends: with a report, with a fault of the program, or at a handle that leads out of
the program. -/
inductive Answer (σ τ : Type) where
  | outcome (outcome : Outcome τ) (nodes : σ)
  | fault (fault : Fault)
  | trap

/-- Run a program over an input from any of its instructions. There is no answer if the run takes
more than `fuel` steps. -/
def execute {σ τ : Type} (task : Task σ τ) (fuel : Nat) (start : InstId) (options : Options)
    (nodes : σ) : Option (Answer σ τ) :=
  match (Machine.initial task.program options nodes).run task fuel start with
  | none => none
  | some (.exit matched, m) =>
    let (outcome, nodes) := m.outcome task options matched
    some (.outcome outcome nodes)
  | some (.fault fault, _) => some (.fault fault)
  | some (.trap, _) => some .trap

structure Parser where
  program : Program
  options : Options

namespace Parser

def parseWith {σ τ : Type} (parser : Parser) (input : Input) (factory : TreeFactory σ τ)
    (nodes : σ) (fuel : Nat) : Option (Answer σ τ) :=
  execute ⟨parser.program, input, factory⟩ fuel parser.program.start parser.options nodes

def parse (parser : Parser) (input : Input) (fuel : Nat) : Option (Answer Unit Tree) :=
  parser.parseWith input Tree.factory () fuel

def recognize (parser : Parser) (input : Input) (fuel : Nat) : Option (Answer Unit Tree) :=
  { parser with options := { parser.options with tree := false } }.parse input fuel

end Parser

end Packrat
