/-
Names by handle. Tags, labels, rule names and the names of binding tables share one pool, whose
first entry is the empty name: it stands for the absence of a tag or label.
-/

import Packrat.Code.Pool

namespace Packrat

structure Symbol where
  index : Nat
deriving DecidableEq, Repr, Hashable, Inhabited

namespace Symbol

def null : Symbol := ⟨0⟩

def isNull (sym : Symbol) : Bool := sym.index == 0

def text (sym : Symbol) : String :=
  if sym.isNull then "Symbol::NULL" else s!"Symbol({sym.index})"

end Symbol

structure SymbolPool where
  names : Pool String

namespace SymbolPool

def initial : SymbolPool := ⟨⟨(∅ : Std.ExtHashMap String Nat).insert "" Symbol.null.index, #[""]⟩⟩

instance : Inhabited SymbolPool := ⟨initial⟩

def intern (pool : SymbolPool) (name : String) : Except PoolError (Symbol × SymbolPool) :=
  match pool.names.intern "symbol pool" maxSymbol name with
  | .ok (index, names) => .ok (⟨index⟩, ⟨names⟩)
  | .error e => .error e

def get? (pool : SymbolPool) (name : String) : Option Symbol :=
  (pool.names.find? name).map Symbol.mk

/-- The name of a handle. A handle from elsewhere has the empty name. -/
def name (pool : SymbolPool) (sym : Symbol) : String :=
  (pool.names.get? sym.index).getD ""

def size (pool : SymbolPool) : Nat := pool.names.size

end SymbolPool

end Packrat
