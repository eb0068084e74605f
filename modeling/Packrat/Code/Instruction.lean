/-
The instructions of the parsing machine. Every instruction names its successor; instructions that
branch name their other successors in the operation itself, and nothing falls through by position.
Operations are parametric in what names an instruction, so that code under assembly (whose targets
may be labels) and finished code (whose targets are places) share one definition.
-/

import Packrat.Code.Symbol

namespace Packrat

/-! ### Handles -/

structure InstId where
  index : Nat
deriving DecidableEq, Repr, Hashable, Inhabited

structure SetId where
  index : Nat
deriving DecidableEq, Repr, Hashable, Inhabited

structure LitId where
  index : Nat
deriving DecidableEq, Repr, Hashable, Inhabited

structure DispatchId where
  index : Nat
deriving DecidableEq, Repr, Hashable, Inhabited

structure MemoId where
  index : Nat
deriving DecidableEq, Repr, Hashable, Inhabited

namespace InstId

def exitFail : InstId := ⟨0⟩

def exitOk : InstId := ⟨1⟩

def succ (id : InstId) : InstId := ⟨id.index + 1⟩

def text (id : InstId) : String := s!"InstId({id.index})"

end InstId

def DispatchId.text (id : DispatchId) : String := s!"DispatchId({id.index})"

def MemoId.text (id : MemoId) : String := s!"MemoId({id.index})"

/-! ### Tests of the input -/

/-- What a test looks for at the cursor. Sets and literals are handles in a program and values
when the test is made. -/
inductive Pattern (s l : Type) where
  | byte (b : UInt8)
  | set (set : s)
  | literal (lit : l)
  | any
deriving DecidableEq, Repr

/-- How a test reacts to what it finds. `once` consumes or fails; `absent` succeeds without
consuming exactly where `once` fails; `optional` and `many` consume what is there and never fail. -/
inductive Policy where
  | once
  | absent
  | optional
  | many
deriving DecidableEq, Repr

/-! ### Operations -/

inductive ControlOp (t : Type) where
  /-- A marker without effect. -/
  | nop (name : Symbol)
  /-- End the run. -/
  | exit (matched : Bool)
  /-- Save the cursor on the frame stack. -/
  | pos
  /-- Return the cursor to the position saved on top of the stack. -/
  | back
  /-- Shift the cursor. -/
  | move (shift : Int)
  | jump (target : t)
  /-- Save the way back and enter a rule. -/
  | call (target after : t) (rule : Symbol)
  /-- Leave a rule. -/
  | ret
  /-- Push a choice point that resumes at `failure`. -/
  | alt (failure : t)
  /-- Drop the innermost choice point. -/
  | succ
  /-- Resume at the innermost choice point. -/
  | fail
  /-- Fail unless the cursor moved since the innermost choice point, which is then renewed. -/
  | guard
  /-- The same check at the end of a repeated body. -/
  | step
deriving DecidableEq, Repr

inductive TreeOp where
  /-- Begin a node at the shifted cursor. -/
  | node (shift : Int)
  /-- End the node at the shifted cursor, and tag it and replace its text where that is asked. -/
  | close (shift : Int) (tag : Symbol) (value : Option LitId)
  | tag (tag : Symbol)
  | replace (value : LitId)
  /-- Make the node built so far the first child of a new one. -/
  | fold (shift : Int) (label : Symbol)
  /-- Open a nested scope. -/
  | push
  /-- Close the nested scope and attach its node. -/
  | pop (label : Symbol)
  /-- Save the state of the log on the frame stack. -/
  | checkpoint
  /-- Build what was logged since the saved state into one attached child. -/
  | emit (label : Symbol)
deriving DecidableEq, Repr

inductive BindingOp where
  /-- Save the state of the bindings on the frame stack. -/
  | enter
  /-- Return the bindings to the saved state. -/
  | leave
  /-- Save the state of the bindings, then hide those of a table. -/
  | mask (table : Symbol)
  /-- Bind a table to the bytes since the saved position. -/
  | define (table : Symbol)
  /-- Fail unless the table has a binding. -/
  | bound (table : Symbol)
  /-- Fail unless the literal is among the visible bindings. -/
  | holds (table : Symbol) (lit : LitId)
  /-- Consume the latest binding. -/
  | consume (table : Symbol)
  /-- Fail unless the bytes since the saved position are the latest binding. -/
  | isLatest (table : Symbol)
  /-- Fail unless the bytes since the saved position are a visible binding. -/
  | isVisible (table : Symbol)
deriving DecidableEq, Repr

inductive CountOp (t : Type) where
  /-- Read the bytes since the saved position as a count. -/
  | scan (mask : UInt64) (shift : Nat)
  /-- Take one off the count, or leave for `done` when none is left. -/
  | dec (done : t)
deriving DecidableEq, Repr

inductive MemoOp (t : Type) where
  /-- Go on at `skip` when the outcome of the rule is known here. -/
  | lookup (point : MemoId) (skip : t)
  /-- Record that the rule of the innermost choice point matched. -/
  | store (point : MemoId)
  /-- Record that the rule failed here, and fail. -/
  | storeFailure (point : MemoId)
  /-- As `lookup`, and attach the node that is known. -/
  | treeLookup (point : MemoId) (label : Symbol) (skip : t)
  /-- As `store`, with the node attached last. -/
  | treeStore (point : MemoId)
deriving DecidableEq, Repr

inductive Op (t : Type) where
  | control (op : ControlOp t)
  | test (pattern : Pattern SetId LitId) (policy : Policy)
  /-- Jump through a table by the byte at the cursor, which is consumed first where `consume`. -/
  | dispatch (table : DispatchId) (consume : Bool)
  | tree (op : TreeOp)
  | bindings (op : BindingOp)
  | count (op : CountOp t)
  | memo (op : MemoOp t)
deriving DecidableEq, Repr

/-- An operation and the instruction that follows it when it completes. -/
structure Inst (t : Type) where
  op : Op t
  next : t
deriving DecidableEq, Repr

/-! ### Mnemonics -/

def Pattern.mnemonic {s l : Type} : Pattern s l → String
  | .byte _ => "byte"
  | .set _ => "set"
  | .literal _ => "str"
  | .any => "any"

def Policy.letter : Policy → String
  | .once => ""
  | .absent => "n"
  | .optional => "o"
  | .many => "r"

variable {t u : Type}

def ControlOp.mnemonic : ControlOp t → String
  | .nop _ => "nop"
  | .exit _ => "exit"
  | .pos => "pos"
  | .back => "back"
  | .move _ => "move"
  | .jump _ => "jump"
  | .call _ _ _ => "call"
  | .ret => "ret"
  | .alt _ => "alt"
  | .succ => "succ"
  | .fail => "fail"
  | .guard => "guard"
  | .step => "step"

def TreeOp.mnemonic : TreeOp → String
  | .node _ => "tbegin"
  | .close _ _ _ => "tend"
  | .tag _ => "ttag"
  | .replace _ => "treplace"
  | .fold _ _ => "tfold"
  | .push => "tpush"
  | .pop _ => "tpop"
  | .checkpoint => "tstart"
  | .emit _ => "temit"

def BindingOp.mnemonic : BindingOp → String
  | .enter => "sopen"
  | .leave => "sclose"
  | .mask _ => "smask"
  | .define _ => "sdef"
  | .bound _ => "sexists"
  | .holds _ _ => "sisdef"
  | .consume _ => "smatch"
  | .isLatest _ => "sis"
  | .isVisible _ => "sisa"

def CountOp.mnemonic : CountOp t → String
  | .scan _ _ => "nscan"
  | .dec _ => "ndec"

def MemoOp.mnemonic : MemoOp t → String
  | .lookup _ _ => "lookup"
  | .store _ => "memo"
  | .storeFailure _ => "failmemo"
  | .treeLookup _ _ _ => "tlookup"
  | .treeStore _ => "tmemo"

def Op.mnemonic : Op t → String
  | .control op => op.mnemonic
  | .test pattern policy => policy.letter ++ pattern.mnemonic
  | .dispatch _ consume => if consume then "ddispatch" else "dispatch"
  | .tree op => op.mnemonic
  | .bindings op => op.mnemonic
  | .count op => op.mnemonic
  | .memo op => op.mnemonic

/-! ### Successors -/

/-- Whether control may go on at the successor of the instruction. The operations left out always
transfer elsewhere. -/
def Op.usesNext : Op t → Bool
  | .control (.exit _) => false
  | .control (.jump _) => false
  | .control .ret => false
  | .control .fail => false
  | .memo (.storeFailure _) => false
  | .dispatch _ _ => false
  | _ => true

/-- The targets that an operation holds, in order. Those of dispatch tables are in the tables. -/
def Op.targets : Op t → List t
  | .control (.jump target) => [target]
  | .control (.call target after _) => [target, after]
  | .control (.alt failure) => [failure]
  | .count (.dec done) => [done]
  | .memo (.lookup _ skip) => [skip]
  | .memo (.treeLookup _ _ skip) => [skip]
  | _ => []

def Op.memoId? : Op t → Option MemoId
  | .memo (.lookup point _) => some point
  | .memo (.store point) => some point
  | .memo (.storeFailure point) => some point
  | .memo (.treeLookup point _ _) => some point
  | .memo (.treeStore point) => some point
  | _ => none

section Traverse

variable {m : Type → Type} [Monad m]

def ControlOp.traverse (f : t → m u) : ControlOp t → m (ControlOp u)
  | .nop name => pure (.nop name)
  | .exit matched => pure (.exit matched)
  | .pos => pure .pos
  | .back => pure .back
  | .move shift => pure (.move shift)
  | .jump target => do
    let target ← f target
    pure (.jump target)
  | .call target after rule => do
    let target ← f target
    let after ← f after
    pure (.call target after rule)
  | .ret => pure .ret
  | .alt failure => do
    let failure ← f failure
    pure (.alt failure)
  | .succ => pure .succ
  | .fail => pure .fail
  | .guard => pure .guard
  | .step => pure .step

def CountOp.traverse (f : t → m u) : CountOp t → m (CountOp u)
  | .scan mask shift => pure (.scan mask shift)
  | .dec done => do
    let done ← f done
    pure (.dec done)

def MemoOp.traverse (f : t → m u) : MemoOp t → m (MemoOp u)
  | .lookup point skip => do
    let skip ← f skip
    pure (.lookup point skip)
  | .store point => pure (.store point)
  | .storeFailure point => pure (.storeFailure point)
  | .treeLookup point label skip => do
    let skip ← f skip
    pure (.treeLookup point label skip)
  | .treeStore point => pure (.treeStore point)

/-- Replace the targets of an operation, in order, with an effect for each. -/
def Op.traverse (f : t → m u) : Op t → m (Op u)
  | .control op => do
    let op ← op.traverse f
    pure (.control op)
  | .test pattern policy => pure (.test pattern policy)
  | .dispatch table consume => pure (.dispatch table consume)
  | .tree op => pure (.tree op)
  | .bindings op => pure (.bindings op)
  | .count op => do
    let op ← op.traverse f
    pure (.count op)
  | .memo op => do
    let op ← op.traverse f
    pure (.memo op)

end Traverse

/-! ### Tables -/

/-- A jump table. Each of the 256 byte values and the end of input selects one of the targets. -/
structure DispatchTable (t : Type) where
  branches : Vector UInt8 257
  targets : Array t
deriving Repr

namespace DispatchTable

def slot : Option UInt8 → Fin 257
  | none => 256
  | some b => ⟨b.toNat, by have := b.toNat_lt; omega⟩

def target? (table : DispatchTable t) (byte : Option UInt8) : Option t :=
  table.targets[(table.branches[slot byte]).toNat]?

/-- Branch numbers given by inclusive ranges of slots. Slots in no range select the first target, and
of two ranges the later one wins. -/
def branchesOf (ranges : List (Nat × Nat × UInt8)) : Vector UInt8 257 :=
  Vector.ofFn fun slot : Fin 257 =>
    ranges.foldl
      (fun branch range =>
        if range.1 ≤ slot.val ∧ slot.val ≤ range.2.1 then range.2.2 else branch) 0

def slotTargets (table : DispatchTable t) : List (Option t) :=
  table.branches.toList.map fun branch => table.targets[branch.toNat]?

/-- The maximal runs of slots with one target, in a list of the targets of the slots from `slot` on:
each as its first slot, its last slot and the target. -/
def runsFrom [DecidableEq t] (slot : Nat) : List (Option t) → List (Nat × Nat × Option t)
  | [] => []
  | target :: rest =>
    match runsFrom (slot + 1) rest with
    | [] => [(slot, slot, target)]
    | (first, last, other) :: more =>
      if other = target then (slot, last, target) :: more
      else (slot, slot, target) :: (first, last, other) :: more

def runs [DecidableEq t] (table : DispatchTable t) : List (Nat × Nat × Option t) :=
  runsFrom 0 table.slotTargets

end DispatchTable

/-- How a rule is memoized: its name, whether it logs tree construction, and whether its outcome
depends on the bindings. -/
structure MemoPoint where
  label : Symbol
  treeMutating : Bool
  stateful : Bool
deriving DecidableEq, Repr, Inhabited

end Packrat
