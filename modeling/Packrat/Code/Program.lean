/-
Code and programs. Code is a list of instructions with the pools that their operands refer to. A
program is finished code, whose targets are places in it, and the place where it starts.
-/

import Packrat.ByteSet.Basic
import Packrat.Code.Instruction

namespace Packrat

/-- Instructions and the pools of their operands, over the targets `t`. -/
structure Code (t : Type) where
  insts : Array (Inst t)
  sets : Array ByteSet
  literals : Array Bytes
  dispatch : Array (DispatchTable t)
  memoPoints : Array MemoPoint
  symbols : SymbolPool

namespace Code

variable {t : Type}

def size (code : Code t) : Nat := code.insts.size

def inst? (code : Code t) (id : InstId) : Option (Inst t) := code.insts[id.index]?

def byteSet? (code : Code t) (id : SetId) : Option ByteSet := code.sets[id.index]?

def literal? (code : Code t) (id : LitId) : Option Bytes := code.literals[id.index]?

def dispatch? (code : Code t) (id : DispatchId) : Option (DispatchTable t) :=
  code.dispatch[id.index]?

def memoPoint? (code : Code t) (id : MemoId) : Option MemoPoint := code.memoPoints[id.index]?

def pattern? (code : Code t) : Pattern SetId LitId → Option (Pattern ByteSet Bytes)
  | .byte b => some (.byte b)
  | .set id => (code.byteSet? id).map .set
  | .literal id => (code.literal? id).map .literal
  | .any => some .any

end Code

structure Program extends Code InstId where
  start : InstId

end Packrat
