/-
The written forms of a tree. The text of a node is its replacement or the input that it covers. As
one expression, a leaf is its tag and its text in quotes, any other node its tag and its children in
brackets, each behind its label if it has one: `#Add[#Int'1' $right=#Int'2']`.
-/

import Packrat.Input.Basic
import Packrat.Tree.Basic

namespace Packrat.Tree

def text (tree : Tree) (input : Input) : String :=
  match tree.value with
  | some value => value.toText
  | none => input.textSlice tree.start tree.stop

def writeLabel (symbols : SymbolPool) (out : String) (label : Symbol) : String :=
  if label.isNull then out else out ++ "$" ++ symbols.name label ++ "="

mutual

def write (symbols : SymbolPool) (input : Input) (out : String) : Tree → String
  | .node tag start stop [] value =>
    let text := Tree.text (.node tag start stop [] value) input
    out ++ "#" ++ symbols.name tag ++ "'" ++ text ++ "'"
  | .node tag _ _ ((label, child) :: rest) _ =>
    let out := out ++ "#" ++ symbols.name tag ++ "["
    let out := writeLabel symbols out label
    let out := write symbols input out child
    writeRest symbols input out rest ++ "]"

def writeRest (symbols : SymbolPool) (input : Input) (out : String) :
    List (Symbol × Tree) → String
  | [] => out
  | (label, child) :: rest =>
    let out := writeLabel symbols (out ++ " ") label
    let out := write symbols input out child
    writeRest symbols input out rest

end

def expression (tree : Tree) (symbols : SymbolPool) (input : Input) : String :=
  write symbols input "" tree

def summary (tree : Tree) : String :=
  s!"CommonTree \x7b tag: {tree.tag.text}, span: {tree.start}..{tree.stop}, " ++
    s!"children: {tree.children.length} \x7d"

end Packrat.Tree
