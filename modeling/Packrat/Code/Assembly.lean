/-
Finishing assembled code. Every label is replaced by the place it is bound to, and every place and
handle is checked to lie in the program. The first defect that is found is the answer: a label bound
twice, then the defects of the instructions in order, of the dispatch tables in order, and of the
start.
-/

import Packrat.Code.Assembler

namespace Packrat

inductive AssemblyError where
  | unboundLabel (label : Label)
  | labelRebound (label : Label)
  | targetOutOfRange (place target : InstId)
  | startOutOfRange (start : InstId)
  | dispatchSlotOutOfRange (table : DispatchId) (slot : Nat) (branch : UInt8) (size : Nat)
  | dispatchTargetOutOfRange (table : DispatchId) (target : InstId)
  | unknownMemoPoint (place : InstId) (point : MemoId) (count : Nat)
  | unknownPoolEntry (place : InstId) (kind : String)
  | memoModeMismatch (place : InstId) (op : String) (point : MemoId)
  | pool (error : PoolError)
deriving DecidableEq, Repr

def AssemblyError.message : AssemblyError → String
  | .unboundLabel label => s!"label {label.index} is referenced but never bound"
  | .labelRebound label => s!"label {label.index} is bound twice"
  | .targetOutOfRange place target =>
    s!"instruction {place.text} refers to {target.text}, outside the program"
  | .startOutOfRange start => s!"start instruction {start.text} is outside the program"
  | .dispatchSlotOutOfRange table slot branch size =>
    s!"dispatch table {table.text} slot {slot} selects branch {branch.toNat}, " ++
      s!"but it has {size} branches"
  | .dispatchTargetOutOfRange table target =>
    s!"dispatch table {table.text} branches to {target.text}, outside the program"
  | .unknownMemoPoint place point count =>
    s!"instruction {place.text} uses memo point {point.text}, but only {count} exist"
  | .unknownPoolEntry place kind => s!"instruction {place.text} refers to a missing {kind} entry"
  | .memoModeMismatch place op point =>
    s!"`{op}` at {place.text} uses memo point {point.text}, whose tree mode does not match"
  | .pool error => error.message

/-- Apply a check to the entries of a list and their places, counted from `start`, until one fails. -/
def checkedMap {ε α β : Type} (f : Nat → α → Except ε β) :
    (start : Nat) → List α → Except ε (List β)
  | _, [] => .ok []
  | start, x :: rest => do
    let y ← f start x
    let ys ← checkedMap f (start + 1) rest
    .ok (y :: ys)

/-! ### Operands -/

def Op.literals {t : Type} : Op t → List LitId
  | .test (.literal lit) _ => [lit]
  | .tree (.replace value) => [value]
  | .tree (.close _ _ (some value)) => [value]
  | .bindings (.holds _ lit) => [lit]
  | _ => []

/-- Whether an operation on a memo point needs one that logs tree construction, or one that does
not; recording a failure does for both. -/
def MemoOp.treeMode? {t : Type} : MemoOp t → Option Bool
  | .lookup _ _ => some false
  | .store _ => some false
  | .storeFailure _ => none
  | .treeLookup _ _ _ => some true
  | .treeStore _ => some true

namespace Assembler

variable (asm : Assembler)

def resolve : Target → Except AssemblyError InstId
  | .inst id => .ok id
  | .label label =>
    match asm.labels[label.index]? with
    | some (some id) => .ok id
    | _ => .error (.unboundLabel label)

def resolveWithin (place : InstId) (target : Target) : Except AssemblyError InstId := do
  let id ← asm.resolve target
  if id.index < asm.size then .ok id else .error (.targetOutOfRange place id)

def checkPools (place : InstId) (op : Op InstId) : Except AssemblyError Unit :=
  match op with
  | .test (.set id) _ =>
    if (asm.byteSet? id).isSome then .ok () else .error (.unknownPoolEntry place "byte set")
  | .dispatch id _ =>
    if (asm.dispatch? id).isSome then .ok ()
    else .error (.unknownPoolEntry place "dispatch table")
  | op =>
    if op.literals.all fun id => (asm.literal? id).isSome then .ok ()
    else .error (.unknownPoolEntry place "literal")

def checkMemo (place : InstId) (op : Op InstId) : Except AssemblyError Unit :=
  match op with
  | .memo memoOp =>
    match op.memoId? with
    | none => .ok ()
    | some id =>
      match asm.memoPoint? id with
      | none => .error (.unknownMemoPoint place id asm.memoPoints.size)
      | some point =>
        match memoOp.treeMode? with
        | none => .ok ()
        | some mode =>
          if mode = point.treeMutating then .ok ()
          else .error (.memoModeMismatch place op.mnemonic id)
  | _ => .ok ()

/-- The instruction at a place with its labels replaced. A successor that is not used may lie
anywhere, but its label has to be bound. -/
def finishInst (index : Nat) (inst : Inst Target) : Except AssemblyError (Inst InstId) := do
  let place : InstId := ⟨index⟩
  let next ← asm.resolve inst.next
  if inst.op.usesNext ∧ asm.size ≤ next.index then .error (.targetOutOfRange place next)
  let op ← inst.op.traverse (asm.resolveWithin place)
  asm.checkPools place op
  asm.checkMemo place op
  .ok ⟨op, next⟩

/-! ### Dispatch tables and start -/

def finishBranch (table : DispatchId) (target : Target) : Except AssemblyError InstId := do
  let id ← asm.resolve target
  if id.index < asm.size then .ok id else .error (.dispatchTargetOutOfRange table id)

/-- A dispatch table with its labels replaced, all of whose slots select one of its branches. -/
def finishTable (index : Nat) (table : DispatchTable Target) :
    Except AssemblyError (DispatchTable InstId) := do
  let id : DispatchId := ⟨index⟩
  let targets ← checkedMap (fun _ => asm.finishBranch id) 0 table.targets.toList
  match (List.finRange 257).find? fun slot => targets.length ≤ table.branches[slot].toNat with
  | some slot =>
    .error (.dispatchSlotOutOfRange id slot.val table.branches[slot] targets.length)
  | none => .ok ⟨table.branches, targets.toArray⟩

def finishStart (start : Target) : Except AssemblyError InstId := do
  let id ← asm.resolve start
  if id.index < asm.size then .ok id else .error (.startOutOfRange id)

def finish (start : Target) : Except AssemblyError Program :=
  match asm.rebound with
  | some label => .error (.labelRebound label)
  | none => do
    let insts ← checkedMap asm.finishInst 0 asm.insts.toList
    let dispatch ← checkedMap asm.finishTable 0 asm.dispatch.toList
    let start ← asm.finishStart start
    .ok
      { insts := insts.toArray
        sets := asm.sets
        literals := asm.literals
        dispatch := dispatch.toArray
        memoPoints := asm.memoPoints
        symbols := asm.symbols
        start := start }

end Assembler

end Packrat
