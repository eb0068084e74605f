/-
One instruction of a run. An instruction goes on at another one, halts (at an exit, at a fault of the
program, or at a handle that leads out of the program) or fails. To fail is the same for every
instruction: the run resumes at the innermost choice point. The operations are taken in groups, by
the part of the state that they work on.
-/

import Packrat.Machine.State
import Packrat.Input.Match

namespace Packrat

inductive Halt where
  | exit (matched : Bool)
  | fault (fault : Fault)
  /-- A handle leads out of the program or out of one of its pools. -/
  | trap
deriving DecidableEq, Repr

inductive Effect (σ τ : Type) where
  | goto (target : InstId) (m : Machine σ τ)
  /-- Resume at the innermost choice point. -/
  | fail (m : Machine σ τ)
  | halt (reason : Halt) (m : Machine σ τ)

/-- What a step leads to, a failure being carried out. -/
inductive Transition (σ τ : Type) where
  | goto (target : InstId) (m : Machine σ τ)
  | halt (reason : Halt) (m : Machine σ τ)

namespace Machine

variable {σ τ : Type}

/-! ### Failing -/

def resume (m : Machine σ τ) (index : Nat) (point : ChoicePoint) : Machine σ τ :=
  let m := m.cut index point
  { m with
    head := max m.head m.pos
    pos := point.pos
    log := m.log.abort point.tree
    bindings := m.bindings.restore point.bindings
    stats := m.stats.backtrack point.pos m.pos m.head }

/-- Fail: resume at the innermost choice point, or end the run without a match if there is none. -/
def fail (place : InstId) (m : Machine σ τ) : Transition σ τ :=
  match m.catchIndex with
  | none => .goto .exitFail { m with stats := m.stats.backtrack m.pos m.pos m.head }
  | some _ =>
    match m.innermost ⟨place, .control .fail⟩ with
    | .error fault => .halt (.fault fault) m
    | .ok (index, point) => .goto point.failure (m.resume index point)

def settle (place : InstId) : Effect σ τ → Transition σ τ
  | .goto target m => .goto target m
  | .fail m => m.fail place
  | .halt reason m => .halt reason m

def require (condition : Bool) (next : InstId) (m : Machine σ τ) : Effect σ τ :=
  if condition then .goto next m else .fail m

/-! ### Cursor and stack -/

/-- Fail unless the cursor moved since the innermost choice point, and renew the choice point. -/
def recheck (site : Site) (next : InstId) (m : Machine σ τ) : Effect σ τ :=
  match m.innermost site with
  | .error fault => .halt (.fault fault) m
  | .ok (index, point) =>
    if point.pos = m.pos then .fail m
    else .goto next (m.renewChoice index point)

def control (site : Site) (next : InstId) (m : Machine σ τ) :
    ControlOp InstId → Effect σ τ
  | .nop _ => .goto next m
  | .exit matched => .halt (.exit matched) m
  | .pos => .goto next (m.push (.position m.pos))
  | .back =>
    match m.popPosition site with
    | .error (fault, m) => .halt (.fault fault) m
    | .ok (pos, m) => .goto next (m.rollback pos)
  | .move shift =>
    match shiftedFrom m.pos shift with
    | none => .halt (.fault (.cursorUnderflow site)) m
    | some pos => .goto next (m.rollback pos)
  | .jump target => .goto target m
  | .call target after _ => .goto target (m.push (.ret after))
  | .ret =>
    match m.popAs Frame.ret? .ret site with
    | .error (fault, m) => .halt (.fault fault) m
    | .ok (target, m) => .goto target m
  | .alt failure => .goto next (m.pushChoice failure)
  | .succ =>
    match m.innermost site with
    | .error fault => .halt (.fault fault) m
    | .ok (index, point) => .goto next (m.cut index point)
  | .fail => .fail m
  | .guard => m.recheck site next
  | .step => m.recheck site next

/-! ### Tests of the input -/

def test (input : Input) (next : InstId) (m : Machine σ τ)
    (pattern : Pattern ByteSet Bytes) : Policy → Effect σ τ
  | .once =>
    match pattern.length? input m.pos with
    | some length => .goto next (m.advance length)
    | none => .fail m
  | .absent =>
    match pattern.length? input m.pos with
    | some _ => .fail m
    | none => .goto next m
  | .optional =>
    match pattern.length? input m.pos with
    | some length => .goto next (m.advance length)
    | none => .goto next m
  | .many => .goto next { m with pos := pattern.skipAll input m.pos }

def dispatch (input : Input) (m : Machine σ τ) (table : DispatchTable InstId)
    (consume : Bool) : Effect σ τ :=
  let byte := input.byteAt? m.pos
  match table.target? byte with
  | none => .halt .trap m
  | some target => .goto target (if consume && byte.isSome then m.advance 1 else m)

/-! ### Tree construction -/

def logged (m : Machine σ τ) (change : TreeLog τ → TreeLog τ) : Machine σ τ :=
  { m with log := change m.log }

def logAt (m : Machine σ τ) (site : Site) (next : InstId) (shift : Int)
    (intent : Nat → Intent τ) : Effect σ τ :=
  match shiftedFrom m.pos shift with
  | none => .halt (.fault (.cursorUnderflow site)) m
  | some pos => .goto next (m.logged fun log => log.append (intent pos))

def closeNode (log : TreeLog τ) (pos : Nat) (tag : Symbol) (value : Option Bytes) : TreeLog τ :=
  let log := log.append (.capture pos)
  let log := if tag.isNull then log else log.append (.tag tag)
  match value with
  | none => log
  | some bytes => log.append (.replace bytes)

/-- The bytes of a literal that need not be given; none where the handle leads out of the pool. -/
def literalValue? (program : Program) : Option LitId → Option (Option Bytes)
  | none => some none
  | some id => (program.literal? id).map some

def treeStep (task : Task σ τ) (site : Site) (next : InstId) (m : Machine σ τ) :
    TreeOp → Effect σ τ
  | .node shift => m.logAt site next shift .begin
  | .close shift tag value =>
    match shiftedFrom m.pos shift, literalValue? task.program value with
    | none, _ => .halt (.fault (.cursorUnderflow site)) m
    | some _, none => .halt .trap m
    | some pos, some bytes => .goto next (m.logged fun log => closeNode log pos tag bytes)
  | .tag tag => .goto next (m.logged fun log => log.append (.tag tag))
  | .replace value =>
    match task.program.literal? value with
    | none => .halt .trap m
    | some bytes => .goto next (m.logged fun log => log.append (.replace bytes))
  | .fold shift label => m.logAt site next shift fun pos => .leftFold pos label
  | .push => .goto next (m.logged fun log => log.append .push)
  | .pop label => .goto next (m.logged fun log => log.append (.pop label))
  | .checkpoint => .goto next (m.push (.tree m.log.mark))
  | .emit label =>
    match m.popAs Frame.tree? .tree site with
    | .error (fault, m) => .halt (.fault fault) m
    | .ok (mark, m) =>
      let (log, nodes) := TreeLog.commit task.factory m.log mark label m.nodes
      .goto next { m with log := log, nodes := nodes }

/-! ### Symbol tables -/

def withBindings (m : Machine σ τ) (change : Bindings → Bindings) : Machine σ τ :=
  { m with bindings := change m.bindings }

def requireCaptured (input : Input) (site : Site) (next : InstId) (m : Machine σ τ)
    (condition : Bindings → Bytes → Bool) : Effect σ τ :=
  match m.popPosition site with
  | .error (fault, m) => .halt (.fault fault) m
  | .ok (start, m) =>
    m.require (condition m.bindings (input.slice start m.pos)) next

def bindingStep (task : Task σ τ) (site : Site) (next : InstId) (m : Machine σ τ) :
    BindingOp → Effect σ τ
  | .enter => .goto next (m.push (.bindings m.bindings.save))
  | .leave =>
    match m.popAs Frame.bindings? .bindings site with
    | .error (fault, m) => .halt (.fault fault) m
    | .ok (mark, m) => .goto next (m.withBindings fun bindings => bindings.restore mark)
  | .mask table =>
    let m := m.push (.bindings m.bindings.save)
    .goto next (m.withBindings fun bindings => bindings.mask table)
  | .define table =>
    match m.popPosition site with
    | .error (fault, m) => .halt (.fault fault) m
    | .ok (start, m) =>
      let captured := task.input.slice start m.pos
      .goto next (m.withBindings fun bindings => bindings.define table captured)
  | .bound table => m.require (m.bindings.bound table) next
  | .holds table lit =>
    match task.program.literal? lit with
    | none => .halt .trap m
    | some bytes => m.require (m.bindings.contains table bytes) next
  | .consume table =>
    match m.bindings.lookup table with
    | none => .goto next m
    | some bytes =>
      if task.input.matchesAt m.pos bytes then .goto next (m.advance bytes.size)
      else .fail m
  | .isLatest table =>
    m.requireCaptured task.input site next fun bindings bytes => bindings.isLatest table bytes
  | .isVisible table =>
    m.requireCaptured task.input site next fun bindings bytes => bindings.contains table bytes

/-! ### Counted repetition -/

/-- The number that the leading decimal digits denote, in one machine word. -/
def digitCount (bytes : List UInt8) : UInt64 :=
  (bytes.takeWhile fun b => 0x30 ≤ b && b ≤ 0x39).foldl
    (fun n b => n * 10 + (b - 0x30).toUInt64) 0

def wordOf (bytes : List UInt8) : UInt64 :=
  bytes.foldl (fun n b => (n <<< 8) ||| b.toUInt64) 0

/-- The count that captured bytes denote: decimal digits where there is no mask, or else the bits
under the mask of the number in the bytes, shifted down. -/
def countOf (bytes : Bytes) (mask : UInt64) (shift : Nat) : UInt64 :=
  if mask = 0 then digitCount bytes.toList
  else if shift < 64 then (wordOf bytes.toList &&& mask) >>> UInt64.ofNat shift
  else 0

def countStep (input : Input) (site : Site) (next : InstId) (m : Machine σ τ) :
    CountOp InstId → Effect σ τ
  | .scan mask shift =>
    match m.popPosition site with
    | .error (fault, m) => .halt (.fault fault) m
    | .ok (start, m) =>
      .goto next (m.push (.count (countOf (input.slice start m.pos) mask shift)))
  | .dec done =>
    match m.frames.back? with
    | some (.count left) =>
      if left = 0 then .goto done m.drop else .goto next (m.drop.push (.count (left - 1)))
    | _ => .halt (.fault (m.mismatch site .count (m.frames.size - 1))) m

/-! ### Memoization -/

def memoState (m : Machine σ τ) (point : MemoPoint) : Option Nat :=
  if point.stateful then some m.bindings.state else none

/-- Record that the rule of the innermost choice point matched, and drop the choice point. The
outcome belongs to the state that the rule was entered with. -/
def storeMatch (m : Machine σ τ) (site : Site) (next : InstId) (id : MemoId)
    (point : MemoPoint) (result : Option τ) : Effect σ τ :=
  match m.innermost site with
  | .error fault => .halt (.fault fault) m
  | .ok (index, choice) =>
    let m := m.cut index choice
    let state := if point.stateful then m.bindings.stateAt choice.bindings else 0
    let entry : MemoEntry τ := ⟨false, m.pos - choice.pos, result, state⟩
    .goto next { m with memo := m.memo.record choice.pos id entry }

def storeFailure (m : Machine σ τ) (id : MemoId) (point : MemoPoint) : Effect σ τ :=
  let entry : MemoEntry τ := ⟨true, 0, none, (m.memoState point).getD 0⟩
  .fail { m with memo := m.memo.record m.pos id entry }

/-- Go on behind a rule whose outcome is known, or enter it. A known match moves the cursor and,
where a label is given, attaches the node; a known failure fails. -/
def lookup (m : Machine σ τ) (next skip : InstId) (id : MemoId) (point : MemoPoint)
    (label : Option Symbol) : Effect σ τ :=
  let (found, memo) := m.memo.lookup m.pos id (m.memoState point)
  let m := { m with memo := memo }
  match found with
  | none => .goto next { m with stats := m.stats.countPoint id.index PointStats.miss }
  | some entry =>
    if entry.failed then
      .fail { m with stats := m.stats.countPoint id.index PointStats.failHit }
    else
      let m :=
        { m with
          pos := m.pos + entry.consumed
          stats := m.stats.countPoint id.index fun stats => stats.hit entry.consumed }
      match label with
      | none => .goto skip m
      | some label => .goto skip (m.logged fun log => log.link label entry.result)

def memoStep (program : Program) (site : Site) (next : InstId) (m : Machine σ τ)
    (op : MemoOp InstId) : Effect σ τ :=
  match (Op.memo op).memoId? with
  | none => .halt .trap m
  | some id =>
    match program.memoPoint? id with
    | none => .halt .trap m
    | some point =>
      match op with
      | .lookup _ skip => m.lookup next skip id point none
      | .treeLookup _ label skip => m.lookup next skip id point (some label)
      | .store _ => m.storeMatch site next id point none
      | .treeStore _ => m.storeMatch site next id point m.log.latestLinked
      | .storeFailure _ => m.storeFailure id point

/-! ### Any instruction -/

def exec (task : Task σ τ) (place : InstId) (inst : Inst InstId) (m : Machine σ τ) :
    Effect σ τ :=
  let site : Site := ⟨place, inst.op⟩
  match inst.op with
  | .control op => m.control site inst.next op
  | .test pattern policy =>
    match task.program.pattern? pattern with
    | none => .halt .trap m
    | some pattern => m.test task.input inst.next pattern policy
  | .dispatch table consume =>
    match task.program.dispatch? table with
    | none => .halt .trap m
    | some table => m.dispatch task.input table consume
  | .tree op => m.treeStep task site inst.next op
  | .bindings op => m.bindingStep task site inst.next op
  | .count op => m.countStep task.input site inst.next op
  | .memo op => m.memoStep task.program site inst.next op

def step (task : Task σ τ) (place : InstId) (m : Machine σ τ) : Transition σ τ :=
  match task.program.inst? place with
  | none => .halt .trap m
  | some inst => settle place (m.exec task place inst)

end Machine

end Packrat
