/-
Parse trees and the functions that build them. A node has a tag, the part of the input that it
covers, labelled children and, where the grammar says so, bytes that replace the covered text. Nodes
are handed to a factory, children before their parents; the tree is one choice of a factory among
others.
-/

import Packrat.Code.Symbol
import Packrat.Bytes

namespace Packrat

/-- A node over children of the type `τ`. The stop may lie before the start. -/
structure Node (τ : Type) where
  tag : Symbol
  start : Nat
  stop : Nat
  /-- The children with their labels, in the order they were attached. -/
  children : List (Symbol × τ)
  value : Option Bytes
deriving Repr

/-- A way to turn nodes into values of the caller's choice, with a state of the caller's own. -/
structure TreeFactory (σ τ : Type) where
  make : Node τ → σ → τ × σ

namespace TreeFactory

def ofFunction {τ : Type} (f : Node τ → τ) : TreeFactory Unit τ :=
  ⟨fun node state => (f node, state)⟩

/-- The factory that numbers the nodes and keeps them all, in the order they were made. -/
def recording : TreeFactory (Array (Node Nat)) Nat :=
  ⟨fun node nodes => (nodes.size, nodes.push node)⟩

end TreeFactory

inductive Tree where
  | node (tag : Symbol) (start stop : Nat) (children : List (Symbol × Tree))
    (value : Option Bytes)

namespace Tree

def ofNode (n : Node Tree) : Tree :=
  .node n.tag n.start n.stop n.children n.value

def root : Tree → Node Tree
  | .node tag start stop children value => ⟨tag, start, stop, children, value⟩

def factory : TreeFactory Unit Tree := .ofFunction ofNode

def tag (tree : Tree) : Symbol := tree.root.tag

def start (tree : Tree) : Nat := tree.root.start

def stop (tree : Tree) : Nat := tree.root.stop

def children (tree : Tree) : List (Symbol × Tree) := tree.root.children

def value (tree : Tree) : Option Bytes := tree.root.value

instance : Inhabited Tree := ⟨.node .null 0 0 [] none⟩

def isLeaf (tree : Tree) : Bool := tree.children.isEmpty

def child? (tree : Tree) (label : Symbol) : Option Tree :=
  (tree.children.find? fun entry => entry.1 == label).map Prod.snd

/-! ### Rows -/

/-- A node of a tree as a row of a table: how far it lies below the root, and the label it is
attached under. -/
structure Row where
  depth : Nat
  label : Symbol
  tag : Symbol
  start : Nat
  stop : Nat
  value : Option Bytes
deriving DecidableEq, Repr

mutual

def pushRows (depth : Nat) (label : Symbol) (rows : Array Row) : Tree → Array Row
  | .node tag start stop children value =>
    pushChildren depth (rows.push ⟨depth, label, tag, start, stop, value⟩) children

def pushChildren (depth : Nat) (rows : Array Row) : List (Symbol × Tree) → Array Row
  | [] => rows
  | (label, child) :: rest =>
    pushChildren depth (pushRows (depth + 1) label rows child) rest

end

/-- The rows of a tree, each node before its children. -/
def rows (tree : Tree) : Array Row :=
  pushRows 0 .null #[] tree

/-! ### Folding and equality -/

mutual

def fold {τ : Type} (f : Node τ → τ) : Tree → τ
  | .node tag start stop children value => f ⟨tag, start, stop, foldChildren f children, value⟩

def foldChildren {τ : Type} (f : Node τ → τ) : List (Symbol × Tree) → List (Symbol × τ)
  | [] => []
  | (label, child) :: rest => (label, fold f child) :: foldChildren f rest

end

mutual

def decEq : (a b : Tree) → Decidable (a = b)
  | .node tag start stop children value, .node tag' start' stop' children' value' =>
    if shallow : tag = tag' ∧ start = start' ∧ stop = stop' ∧ value = value' then
      match decEqChildren children children' with
      | isTrue same => isTrue (by obtain ⟨rfl, rfl, rfl, rfl⟩ := shallow; rw [same])
      | isFalse differ => isFalse (by intro equal; cases equal; exact differ rfl)
    else isFalse (by intro equal; cases equal; exact shallow ⟨rfl, rfl, rfl, rfl⟩)

def decEqChildren : (as bs : List (Symbol × Tree)) → Decidable (as = bs)
  | [], [] => isTrue rfl
  | [], _ :: _ => isFalse (by intro equal; cases equal)
  | _ :: _, [] => isFalse (by intro equal; cases equal)
  | (label, a) :: as, (label', b) :: bs =>
    if sameLabel : label = label' then
      match decEq a b with
      | isFalse differ => isFalse (by intro equal; cases equal; exact differ rfl)
      | isTrue same =>
        match decEqChildren as bs with
        | isFalse differ => isFalse (by intro equal; cases equal; exact differ rfl)
        | isTrue sameRest => isTrue (by rw [sameLabel, same, sameRest])
    else isFalse (by intro equal; cases equal; exact sameLabel rfl)

end

instance : DecidableEq Tree := decEq

end Tree

end Packrat
