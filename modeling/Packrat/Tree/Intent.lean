/-
Intents of tree construction and the nodes they amount to. A run does not build nodes as it goes: it
logs intents, and only those that survive are read, from first to last, into one node. A scope that
is open while the list is read holds the node built so far; a nested scope's node becomes a child of
the scope around it.
-/

import Packrat.Tree.Basic

namespace Packrat

inductive Intent (τ : Type) where
  /-- Begin the node anew at a position. -/
  | begin (pos : Nat)
  /-- Set the end of the node. -/
  | capture (pos : Nat)
  | tag (name : Symbol)
  | replace (value : Bytes)
  /-- Begin a node at a position whose first child is the node built so far. -/
  | leftFold (pos : Nat) (label : Symbol)
  /-- Open a nested scope. -/
  | push
  /-- Close the nested scope and attach its node. -/
  | pop (label : Symbol)
  /-- Attach a node that is built already, if there is one. -/
  | link (label : Symbol) (child : Option τ)
deriving DecidableEq, Repr

/-- A node under construction, its children so far last. -/
structure Scope (τ : Type) where
  tag : Symbol
  start : Nat
  stop : Nat
  children : Array (Symbol × τ)
  value : Option Bytes
deriving Repr

namespace Scope

variable {τ : Type}

def fresh (pos : Nat) : Scope τ := ⟨.null, pos, pos, #[], none⟩

def position : Intent τ → Nat
  | .begin pos => pos
  | .capture pos => pos
  | .leftFold pos _ => pos
  | _ => 0

def opening : List (Intent τ) → Scope τ
  | [] => fresh 0
  | intent :: _ => fresh (position intent)

def attach (scope : Scope τ) (label : Symbol) (child : τ) : Scope τ :=
  { scope with children := scope.children.push (label, child) }

def node (scope : Scope τ) : Node τ :=
  ⟨scope.tag, scope.start, scope.stop, scope.children.toList, scope.value⟩

end Scope

namespace Intent

variable {σ τ : Type}

/-- What a construction leaves: its node and, where an unmatched `pop` ended it, the label of that
`pop` with the intents after it. -/
structure Built (τ : Type) where
  node : τ
  rest : Option (Symbol × List (Intent τ))

def closeAll (factory : TreeFactory σ τ) (scope : Scope τ) (state : σ) : List (Scope τ) → τ × σ
  | [] => factory.make scope.node state
  | parent :: outer =>
    let (child, state) := factory.make scope.node state
    closeAll factory (parent.attach .null child) state outer

/-- Read intents into the innermost scope, with the scopes around it, innermost first. The reading
ends at the end of the list, where every scope is closed, or at the first `pop` that has no scope
around it to return to. -/
def build (factory : TreeFactory σ τ) :
    List (Intent τ) → (scope : Scope τ) → (outer : List (Scope τ)) → σ → Built τ × σ
  | [], scope, outer, state =>
    let (node, state) := closeAll factory scope state outer
    (⟨node, none⟩, state)
  | .begin pos :: rest, _, outer, state => build factory rest (.fresh pos) outer state
  | .capture pos :: rest, scope, outer, state =>
    build factory rest { scope with stop := pos } outer state
  | .tag name :: rest, scope, outer, state =>
    build factory rest { scope with tag := name } outer state
  | .replace value :: rest, scope, outer, state =>
    build factory rest { scope with value := some value } outer state
  | .leftFold pos label :: rest, scope, outer, state =>
    let (left, state) := factory.make scope.node state
    build factory rest ⟨.null, pos, scope.stop, #[(label, left)], none⟩ outer state
  | .push :: rest, scope, outer, state =>
    build factory rest (Scope.opening rest) (scope :: outer) state
  | .pop label :: rest, scope, [], state =>
    let (node, state) := factory.make scope.node state
    (⟨node, some (label, rest)⟩, state)
  | .pop label :: rest, scope, parent :: outer, state =>
    let (child, state) := factory.make scope.node state
    build factory rest (parent.attach label child) outer state
  | .link _ none :: rest, scope, outer, state => build factory rest scope outer state
  | .link label (some child) :: rest, scope, outer, state =>
    build factory rest (scope.attach label child) outer state

def construct (factory : TreeFactory σ τ) (intents : List (Intent τ)) (state : σ) :
    Built τ × σ :=
  build factory intents (Scope.opening intents) [] state

def isBegin : Intent τ → Bool
  | .begin _ => true
  | _ => false

/-- The node of a whole log: what is read from the first intent that begins a node, or an untagged
node over the given span if none does. -/
def result (factory : TreeFactory σ τ) (start stop : Nat) (intents : List (Intent τ))
    (state : σ) : τ × σ :=
  match intents.dropWhile fun intent => !intent.isBegin with
  | [] => factory.make ⟨.null, start, stop, [], none⟩ state
  | first :: rest =>
    let (built, state) := construct factory (first :: rest) state
    (built.node, state)

end Intent

end Packrat
