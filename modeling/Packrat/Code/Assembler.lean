/-
Assembling code in one pass. A branch to code that does not exist yet names a label, which may be
bound before or after it is used. The two instructions that end a run come first, so they can be
targets from the start. Every step that hands out a handle may find its pool full.
-/

import Packrat.Code.Program

namespace Packrat

structure Label where
  index : Nat
deriving DecidableEq, Repr, Hashable, Inhabited

/-- A successor of an instruction under assembly: a place, or whatever place a label is bound to. -/
inductive Target where
  | inst (id : InstId)
  | label (name : Label)
deriving DecidableEq, Repr, Inhabited

namespace Target

/-- The bit that tells the number of a label from the number of a place. -/
def labelBit : Nat := 0x80000000

def raw : Target → Nat
  | .inst id => id.index
  | .label name => name.index ||| labelBit

def ofRaw (n : Nat) : Target :=
  if n &&& labelBit = 0 then .inst ⟨n⟩ else .label ⟨n &&& maxHandle⟩

end Target

/-- Code under assembly: the maps that find its sets and literals again, its labels with the places
they are bound to, and the first label that was bound a second time. -/
structure Assembler extends Code Target where
  setIds : Std.ExtHashMap ByteSet Nat
  literalIds : Std.ExtHashMap Bytes Nat
  labels : Array (Option InstId)
  rebound : Option Label

namespace Assembler

def initial : Assembler where
  insts := #[⟨.control (.exit false), .inst .exitFail⟩, ⟨.control (.exit true), .inst .exitOk⟩]
  sets := #[]
  literals := #[]
  dispatch := #[]
  memoPoints := #[]
  symbols := .initial
  setIds := ∅
  literalIds := ∅
  labels := #[]
  rebound := none

instance : Inhabited Assembler := ⟨initial⟩

def label (asm : Assembler) : Except PoolError (Label × Assembler) :=
  match nextHandle "labels" maxHandle asm.labels.size with
  | .ok index => .ok (⟨index⟩, { asm with labels := asm.labels.push none })
  | .error e => .error e

/-- Bind a label to the instruction that is emitted next. There is no result for a label of another
assembler. -/
def bind? (asm : Assembler) (label : Label) : Option Assembler :=
  match asm.labels[label.index]? with
  | none => none
  | some place =>
    let labels := asm.labels.setIfInBounds label.index (some ⟨asm.insts.size⟩)
    match place, asm.rebound with
    | some _, none => some { asm with labels := labels, rebound := some label }
    | _, _ => some { asm with labels := labels }

def nextId (asm : Assembler) : Except PoolError InstId :=
  match nextHandle "instructions" maxHandle asm.insts.size with
  | .ok index => .ok ⟨index⟩
  | .error e => .error e

def emitTo (asm : Assembler) (op : Op Target) (next : Target) :
    Except PoolError (InstId × Assembler) :=
  match asm.nextId with
  | .ok id => .ok (id, { asm with insts := asm.insts.push ⟨op, next⟩ })
  | .error e => .error e

/-- Emit an operation whose successor is the instruction emitted after it. Behind the last place of
all, the number of the successor is that of the first label. -/
def emit (asm : Assembler) (op : Op Target) : Except PoolError (InstId × Assembler) :=
  match asm.nextId with
  | .ok id => .ok (id, { asm with insts := asm.insts.push ⟨op, .ofRaw id.succ.index⟩ })
  | .error e => .error e

def intern (asm : Assembler) (name : String) : Except PoolError (Symbol × Assembler) :=
  match asm.symbols.intern name with
  | .ok (sym, symbols) => .ok (sym, { asm with symbols := symbols })
  | .error e => .error e

def setPool (asm : Assembler) : Pool ByteSet := ⟨asm.setIds, asm.sets⟩

def byteSet (asm : Assembler) (set : ByteSet) : Except PoolError (SetId × Assembler) :=
  match asm.setPool.intern "byte sets" maxHandle set with
  | .ok (index, pool) => .ok (⟨index⟩, { asm with sets := pool.entries, setIds := pool.handles })
  | .error e => .error e

def literalPool (asm : Assembler) : Pool Bytes := ⟨asm.literalIds, asm.literals⟩

def literal (asm : Assembler) (bytes : Bytes) : Except PoolError (LitId × Assembler) :=
  match asm.literalPool.intern "literals" maxHandle bytes with
  | .ok (index, pool) =>
    .ok (⟨index⟩, { asm with literals := pool.entries, literalIds := pool.handles })
  | .error e => .error e

def dispatchTable (asm : Assembler) (table : DispatchTable Target) :
    Except PoolError (DispatchId × Assembler) :=
  match nextHandle "dispatch tables" maxHandle asm.dispatch.size with
  | .ok index => .ok (⟨index⟩, { asm with dispatch := asm.dispatch.push table })
  | .error e => .error e

def memoPoint (asm : Assembler) (point : MemoPoint) : Except PoolError (MemoId × Assembler) :=
  match nextHandle "memo points" maxHandle asm.memoPoints.size with
  | .ok index => .ok (⟨index⟩, { asm with memoPoints := asm.memoPoints.push point })
  | .error e => .error e

end Assembler

end Packrat
