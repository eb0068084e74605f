/-
Which code can be finished. Finishing accepts the code of some calls exactly if it is well formed,
and then replaces every label by the place that it is bound to and changes nothing else. Otherwise
it names a defect that the code has.
-/

import Packrat.Proofs.Code.Calls
import Packrat.Proofs.Code.Checks

namespace Packrat

/-! ### Well-formed code -/

open Call (code binds placeOf)

namespace Call

variable (calls : List Call)

def Bound : Target → Prop
  | .inst _ => True
  | .label name => calls.any (binds name) = true

def place : Target → InstId
  | .inst id => id
  | .label name => placeOf calls name

def Inside (target : Target) : Prop :=
  Bound calls target ∧ (place calls target).index < (code calls).size

end Call

open Call (place Bound Inside)

/-- The targets of an instruction and the entries that it refers to are there. A successor that is
not used may lie anywhere, but its label is bound. -/
structure Inst.Sound (calls : List Call) (inst : Inst Target) : Prop where
  next : Bound calls inst.next
  used : inst.op.usesNext = true → (place calls inst.next).index < (code calls).size
  operands : ∀ target ∈ inst.op.targets, Inside calls target
  sets : ∀ id ∈ inst.op.sets, id.index < (code calls).sets.size
  literals : ∀ id ∈ inst.op.literals, id.index < (code calls).literals.size
  tables : ∀ id ∈ inst.op.tables, id.index < (code calls).dispatch.size
  point : ∀ id, inst.op.memoId? = some id → ∃ point, (code calls).memoPoint? id = some point ∧
    ∀ mode, inst.op.treeMode? = some mode → mode = point.treeMutating

/-- Every slot of a table selects a branch, and every branch stands for a place in the code. -/
structure DispatchTable.Sound (calls : List Call) (table : DispatchTable Target) : Prop where
  targets : ∀ target ∈ table.targets, Inside calls target
  branches : ∀ slot : Fin 257, (table.branches.get slot).toNat < table.targets.size

/-- Code that can be finished: no label is bound twice, and all that is named is there. -/
structure WellFormed (calls : List Call) (start : Target) : Prop where
  once : ∀ label, calls.countP (binds label) ≤ 1
  insts : ∀ inst ∈ (code calls).insts, inst.Sound calls
  tables : ∀ table ∈ (code calls).dispatch, table.Sound calls
  start : Inside calls start

inductive Mentions (calls : List Call) (start : Target) : Target → Prop
  | next {inst : Inst Target} (member : inst ∈ (code calls).insts) :
      Mentions calls start inst.next
  | operand {inst : Inst Target} (member : inst ∈ (code calls).insts) {target : Target}
      (named : target ∈ inst.op.targets) : Mentions calls start target
  | branch {table : DispatchTable Target} (member : table ∈ (code calls).dispatch)
      {target : Target} (named : target ∈ table.targets) : Mentions calls start target
  | start : Mentions calls start start

/-- The defects of code, each with the error that names it. A target is out of range only if it is a
place or a label that is bound: a label that is never bound has a defect of its own. -/
inductive Defect (calls : List Call) (start : Target) : AssemblyError → Prop
  | unbound {label : Label} (named : Mentions calls start (.label label))
      (never : ¬ Bound calls (.label label)) : Defect calls start (.unboundLabel label)
  | rebound {label : Label} (twice : 1 < calls.countP (binds label)) :
      Defect calls start (.labelRebound label)
  | next {index : Nat} {inst : Inst Target} (found : (code calls).insts[index]? = some inst)
      (used : inst.op.usesNext = true) (bound : Bound calls inst.next)
      (beyond : (code calls).size ≤ (place calls inst.next).index) :
      Defect calls start (.targetOutOfRange ⟨index⟩ (place calls inst.next))
  | operand {index : Nat} {inst : Inst Target} (found : (code calls).insts[index]? = some inst)
      {target : Target} (named : target ∈ inst.op.targets) (bound : Bound calls target)
      (beyond : (code calls).size ≤ (place calls target).index) :
      Defect calls start (.targetOutOfRange ⟨index⟩ (place calls target))
  | set {index : Nat} {inst : Inst Target} (found : (code calls).insts[index]? = some inst)
      {id : SetId} (named : id ∈ inst.op.sets) (missing : (code calls).sets.size ≤ id.index) :
      Defect calls start (.unknownPoolEntry ⟨index⟩ "byte set")
  | literal {index : Nat} {inst : Inst Target} (found : (code calls).insts[index]? = some inst)
      {id : LitId} (named : id ∈ inst.op.literals)
      (missing : (code calls).literals.size ≤ id.index) :
      Defect calls start (.unknownPoolEntry ⟨index⟩ "literal")
  | table {index : Nat} {inst : Inst Target} (found : (code calls).insts[index]? = some inst)
      {id : DispatchId} (named : id ∈ inst.op.tables)
      (missing : (code calls).dispatch.size ≤ id.index) :
      Defect calls start (.unknownPoolEntry ⟨index⟩ "dispatch table")
  | point {index : Nat} {inst : Inst Target} (found : (code calls).insts[index]? = some inst)
      {id : MemoId} (named : inst.op.memoId? = some id)
      (missing : (code calls).memoPoints.size ≤ id.index) :
      Defect calls start (.unknownMemoPoint ⟨index⟩ id (code calls).memoPoints.size)
  | mode {index : Nat} {inst : Inst Target} (found : (code calls).insts[index]? = some inst)
      {id : MemoId} (named : inst.op.memoId? = some id) {point : MemoPoint}
      (known : (code calls).memoPoint? id = some point) {mode : Bool}
      (needed : inst.op.treeMode? = some mode) (differs : mode ≠ point.treeMutating) :
      Defect calls start (.memoModeMismatch ⟨index⟩ inst.op.mnemonic id)
  | branch {index : Nat} {table : DispatchTable Target}
      (found : (code calls).dispatch[index]? = some table) {target : Target}
      (named : target ∈ table.targets) (bound : Bound calls target)
      (beyond : (code calls).size ≤ (place calls target).index) :
      Defect calls start (.dispatchTargetOutOfRange ⟨index⟩ (place calls target))
  | slot {index : Nat} {table : DispatchTable Target}
      (found : (code calls).dispatch[index]? = some table) (slot : Fin 257)
      (beyond : table.targets.size ≤ (table.branches.get slot).toNat) :
      Defect calls start
        (.dispatchSlotOutOfRange ⟨index⟩ slot.val (table.branches.get slot) table.targets.size)
  | start (bound : Bound calls start) (beyond : (code calls).size ≤ (place calls start).index) :
      Defect calls start (.startOutOfRange (place calls start))

/-- No well-formed code has a defect. -/
theorem Defect.excludes {calls : List Call} {start : Target} {error : AssemblyError}
    (defect : Defect calls start error) : ¬ WellFormed calls start := by
  intro sound
  cases defect with
  | unbound named never =>
      generalize same : Target.label _ = target at named
      cases named with
      | next member => exact never (same ▸ (sound.insts _ member).next)
      | operand member named => exact never (same ▸ ((sound.insts _ member).operands _ named).1)
      | branch member named => exact never (same ▸ ((sound.tables _ member).targets _ named).1)
      | start => exact never (same ▸ sound.start.1)
  | rebound twice => exact Nat.not_le_of_lt twice (sound.once _)
  | next found used _ beyond =>
      have inst := sound.insts _ (Array.mem_of_getElem? found)
      exact Nat.not_lt_of_le beyond (inst.used used)
  | operand found named _ beyond =>
      have inst := sound.insts _ (Array.mem_of_getElem? found)
      exact Nat.not_lt_of_le beyond (inst.operands _ named).2
  | set found named missing =>
      have inst := sound.insts _ (Array.mem_of_getElem? found)
      exact Nat.not_lt_of_le missing (inst.sets _ named)
  | literal found named missing =>
      have inst := sound.insts _ (Array.mem_of_getElem? found)
      exact Nat.not_lt_of_le missing (inst.literals _ named)
  | table found named missing =>
      have inst := sound.insts _ (Array.mem_of_getElem? found)
      exact Nat.not_lt_of_le missing (inst.tables _ named)
  | point found named missing =>
      obtain ⟨point, known, _⟩ := (sound.insts _ (Array.mem_of_getElem? found)).point _ named
      exact Nat.not_lt_of_le missing (Array.getElem?_eq_some_iff.mp known).1
  | mode found named known needed differs =>
      obtain ⟨point, known', fits⟩ := (sound.insts _ (Array.mem_of_getElem? found)).point _ named
      rw [known] at known'
      cases known'
      exact differs (fits _ needed)
  | branch found named _ beyond =>
      have table := sound.tables _ (Array.mem_of_getElem? found)
      exact Nat.not_lt_of_le beyond (table.targets _ named).2
  | slot found slot beyond =>
      have table := sound.tables _ (Array.mem_of_getElem? found)
      exact Nat.not_lt_of_le beyond (table.branches slot)
  | start _ beyond => exact Nat.not_lt_of_le beyond sound.start.2

/-! ### Finishing -/

theorem Assembler.Follows.size_eq {calls : List Call} {asm : Assembler}
    (follows : asm.Follows calls) : asm.size = (Call.code calls).size :=
  congrArg Code.size follows.code

namespace Assembler

section Finish

variable {calls : List Call} {asm : Assembler} {start : Target} (follows : asm.Follows calls)
  (sound : asm.rebound = none)

include follows sound

theorem resolve_decides {target : Target} (named : Mentions calls start target) :
    Decides (asm.resolve target) (Bound calls target) (place calls target)
      (Defect calls start) := by
  cases target with
  | inst id => exact .accept trivial rfl
  | label label =>
      have bound := follows.labels.bound label
      cases slot : asm.labels[label.index]?.join with
      | none =>
          have refused : asm.resolve (.label label) = .error (.unboundLabel label) := by
            rw [resolve]
            cases entry : asm.labels[label.index]? with
            | none => rfl
            | some held =>
                rw [entry, Option.join_some] at slot
                rw [slot]
          have never : ¬ Bound calls (.label label) := by
            rw [Bound, ← bound, slot]
            exact Bool.false_ne_true
          exact .reject never refused (.unbound named never)
      | some id =>
          have held := Option.join_eq_some_iff.mp slot
          refine .accept ?_ ?_
          · rw [Bound, ← bound, slot]
            rfl
          · rw [resolve, held]
            exact congrArg Except.ok (follows.labels.placed sound label id held)

/-- A target that is checked against the size of the code. -/
theorem bounded_decides {target : Target} (named : Mentions calls start target)
    {error : InstId → AssemblyError}
    (present : Bound calls target → (code calls).size ≤ (place calls target).index →
      Defect calls start (error (place calls target))) :
    Decides (do
      let id ← asm.resolve target
      if id.index < asm.size then .ok id else .error (error id))
      (Inside calls target) (place calls target) (Defect calls start) := by
  refine (resolve_decides follows sound named).bind fun bound => ?_
  rw [follows.size_eq]
  exact .check Iff.rfl (fun outside => present bound (Nat.le_of_not_lt outside)) _

/-- The operation of an instruction, whatever the successor. -/
theorem finishOp_decides {index : Nat} {inst : Inst Target}
    (found : (code calls).insts[index]? = some inst) (next : InstId) :
    Decides (do
      let op ← inst.op.traverse (asm.resolveWithin ⟨index⟩)
      asm.checkPools ⟨index⟩ op
      asm.checkMemo ⟨index⟩ op
      .ok ⟨op, next⟩)
      ((∀ target ∈ inst.op.targets, Inside calls target) ∧
        ((∀ id ∈ inst.op.sets, id.index < (code calls).sets.size) ∧
          (∀ id ∈ inst.op.literals, id.index < (code calls).literals.size) ∧
          ∀ id ∈ inst.op.tables, id.index < (code calls).dispatch.size) ∧
        ∀ id, inst.op.memoId? = some id → ∃ point, (code calls).memoPoint? id = some point ∧
          ∀ mode, inst.op.treeMode? = some mode → mode = point.treeMutating)
      (⟨inst.op.map (place calls), next⟩ : Inst InstId) (Defect calls start) := by
  have member := Array.mem_of_getElem? found
  have operands : Decides (inst.op.traverse (asm.resolveWithin ⟨index⟩))
      (∀ target ∈ inst.op.targets, Inside calls target) (inst.op.map (place calls))
      (Defect calls start) :=
    inst.op.traverse_decides fun target named =>
      bounded_decides follows sound (.operand member named) (.operand found named)
  -- The entries are checked on the replaced operation, which refers to the same ones.
  have pools : Decides (asm.checkPools ⟨index⟩ (inst.op.map (place calls))) _ ()
      (Defect calls start) :=
    asm.checkPools_decides ⟨index⟩ (inst.op.map (place calls))
      (fun id named missing => .set found (by rwa [Op.sets_map] at named)
        (by rwa [follows.code] at missing))
      (fun id named missing => .literal found (by rwa [Op.literals_map] at named)
        (by rwa [follows.code] at missing))
      (fun id named missing => .table found (by rwa [Op.tables_map] at named)
        (by rwa [follows.code] at missing))
  rw [Op.sets_map, Op.literals_map, Op.tables_map, follows.code] at pools
  have unknown : ∀ id, (inst.op.map (place calls)).memoId? = some id →
      asm.memoPoints.size ≤ id.index →
      Defect calls start (.unknownMemoPoint ⟨index⟩ id asm.memoPoints.size) := by
    intro id named missing
    rw [Op.memoId?_map] at named
    rw [follows.code] at missing ⊢
    exact .point found named missing
  have mismatch : ∀ id point mode, (inst.op.map (place calls)).memoId? = some id →
      asm.memoPoint? id = some point → (inst.op.map (place calls)).treeMode? = some mode →
      mode ≠ point.treeMutating →
      Defect calls start (.memoModeMismatch ⟨index⟩ (inst.op.map (place calls)).mnemonic id) := by
    intro id point mode named known needed differs
    rw [Op.memoId?_map] at named
    rw [follows.code] at known
    rw [Op.treeMode?_map] at needed
    rw [Op.mnemonic_map]
    exact .mode found named known needed differs
  have memo := asm.checkMemo_decides ⟨index⟩ (inst.op.map (place calls)) unknown mismatch
  rw [Op.memoId?_map, Op.treeMode?_map, follows.code] at memo
  exact operands.bind fun _ => pools.bind fun _ => memo.map fun _ =>
    (⟨inst.op.map (place calls), next⟩ : Inst InstId)

theorem finishInst_decides {index : Nat} {inst : Inst Target}
    (found : (code calls).insts[index]? = some inst) :
    Decides (asm.finishInst index inst) (inst.Sound calls) (inst.map (place calls))
      (Defect calls start) := by
  have successor : Decides (asm.resolve inst.next) (Bound calls inst.next)
      (place calls inst.next) (Defect calls start) :=
    resolve_decides follows sound (.next (Array.mem_of_getElem? found))
  cases successor with
  | reject never resolved present =>
      refine .reject (fun inst => never inst.next) ?_ present
      unfold finishInst
      rw [resolved]
      rfl
  | accept bound resolved =>
      by_cases used : inst.op.usesNext = true → (place calls inst.next).index < (code calls).size
      · have within : ¬ (inst.op.usesNext = true ∧ asm.size ≤ (place calls inst.next).index) := by
          rw [follows.size_eq]
          exact fun both => Nat.not_lt_of_le both.2 (used both.1)
        have finish : asm.finishInst index inst = (do
            let op ← inst.op.traverse (asm.resolveWithin ⟨index⟩)
            asm.checkPools ⟨index⟩ op
            asm.checkMemo ⟨index⟩ op
            .ok ⟨op, place calls inst.next⟩) := by
          unfold finishInst
          rw [resolved]
          exact if_neg within
        rw [finish]
        refine (finishOp_decides follows sound found (place calls inst.next)).congr
          ⟨fun ⟨operands, ⟨sets, literals, tables⟩, point⟩ => ?_, fun inst => ?_⟩
        · exact ⟨bound, used, operands, sets, literals, tables, point⟩
        · exact ⟨inst.operands, ⟨inst.sets, inst.literals, inst.tables⟩, inst.point⟩
      · obtain ⟨uses, beyond⟩ : inst.op.usesNext = true ∧
            (code calls).size ≤ (place calls inst.next).index := by
          simpa only [Classical.not_imp, Nat.not_lt] using used
        refine .reject (fun inst => used inst.used) ?_ (.next found uses bound beyond)
        unfold finishInst
        rw [resolved]
        exact if_pos ⟨uses, follows.size_eq ▸ beyond⟩

theorem finishTable_decides {index : Nat} {table : DispatchTable Target}
    (found : (code calls).dispatch[index]? = some table) :
    Decides (asm.finishTable index table) (table.Sound calls) (table.map (place calls))
      (Defect calls start) := by
  have member := Array.mem_of_getElem? found
  have targets : Decides (checkedMap (fun _ => asm.finishBranch ⟨index⟩) 0 table.targets.toList)
      (∀ target ∈ table.targets.toList, Inside calls target)
      (table.targets.toList.map (place calls)) (Defect calls start) :=
    checkedMap_decides table.targets.toList 0 fun _ target listed => by
      have named := Array.mem_toList_iff.mp (List.mem_of_getElem? listed)
      exact bounded_decides follows sound (.branch member named) (.branch found named)
  have size : (table.targets.toList.map (place calls)).length = table.targets.size := by
    rw [List.length_map, Array.length_toList]
  have same : (⟨table.branches, (table.targets.toList.map (place calls)).toArray⟩ :
      DispatchTable InstId) = table.map (place calls) := by
    rw [DispatchTable.map, ← Array.toList_map, Array.toArray_toList]
  have both : Decides (asm.finishTable index table)
      ((∀ target ∈ table.targets.toList, Inside calls target) ∧
        ∀ slot : Fin 257, (table.branches.get slot).toNat < table.targets.size)
      (table.map (place calls)) (Defect calls start) := by
    refine targets.bind fun _ => ?_
    rw [size, same]
    split
    next slot beyond =>
      have chosen := List.find?_some beyond
      have outside : table.targets.size ≤ (table.branches.get slot).toNat :=
        of_decide_eq_true chosen
      exact .reject (fun all => Nat.not_lt_of_le outside (all slot)) rfl (.slot found slot outside)
    next beyond =>
      refine .accept (fun slot => ?_) rfl
      have inside := List.find?_eq_none.mp beyond slot (List.mem_finRange slot)
      exact Nat.lt_of_not_le fun outside => inside (decide_eq_true outside)
  refine both.congr ⟨fun ⟨targets, branches⟩ => ⟨fun target listed => ?_, branches⟩,
    fun table => ⟨fun target listed => ?_, table.branches⟩⟩
  · exact targets target (Array.mem_toList_iff.mpr listed)
  · exact table.targets target (Array.mem_toList_iff.mp listed)

theorem finishStart_decides :
    Decides (asm.finishStart start) (Inside calls start) (place calls start) (Defect calls start) :=
  bounded_decides follows sound .start .start

end Finish

end Assembler

/-- The program of some calls: their code with the place of every label in its stead. -/
def Call.patched (calls : List Call) (start : Target) : Program :=
  ⟨(code calls).map (place calls), place calls start⟩

theorem Assembler.Follows.finish_decides {calls : List Call} {asm : Assembler}
    (follows : asm.Follows calls) (start : Target) :
    Decides (asm.finish start) (WellFormed calls start) (Call.patched calls start)
      (Defect calls start) := by
  unfold finish
  cases first : asm.rebound with
  | some label =>
      have twice := follows.labels.twice label first
      exact .reject (fun sound => Nat.not_le_of_lt twice (sound.once label)) rfl (.rebound twice)
  | none =>
      have once := follows.labels.once first
      have insts : Decides (checkedMap asm.finishInst 0 asm.insts.toList)
          (∀ inst ∈ asm.insts.toList, inst.Sound calls)
          (asm.insts.toList.map (Inst.map (place calls))) (Defect calls start) :=
        checkedMap_decides asm.insts.toList 0 fun index inst found => by
          rw [Array.getElem?_toList, follows.code] at found
          rw [Nat.zero_add]
          exact finishInst_decides follows first found
      have tables : Decides (checkedMap asm.finishTable 0 asm.dispatch.toList)
          (∀ table ∈ asm.dispatch.toList, table.Sound calls)
          (asm.dispatch.toList.map (DispatchTable.map (place calls))) (Defect calls start) :=
        checkedMap_decides asm.dispatch.toList 0 fun index table found => by
          rw [Array.getElem?_toList, follows.code] at found
          rw [Nat.zero_add]
          exact finishTable_decides follows first found
      have entry : Decides (asm.finishStart start) (Inside calls start) (place calls start)
          (Defect calls start) := finishStart_decides follows first
      have same : (⟨⟨(asm.insts.toList.map (Inst.map (place calls))).toArray, asm.sets,
          asm.literals, (asm.dispatch.toList.map (DispatchTable.map (place calls))).toArray,
          asm.memoPoints, asm.symbols⟩, place calls start⟩ : Program) =
          Call.patched calls start := by
        rw [follows.code, ← Array.toList_map, ← Array.toList_map, Array.toArray_toList,
          Array.toArray_toList]
        rfl
      have all : Decides (do
          let insts ← checkedMap asm.finishInst 0 asm.insts.toList
          let dispatch ← checkedMap asm.finishTable 0 asm.dispatch.toList
          let start ← asm.finishStart start
          .ok (⟨⟨insts.toArray, asm.sets, asm.literals, dispatch.toArray, asm.memoPoints,
            asm.symbols⟩, start⟩ : Program)) (_ ∧ _ ∧ _) _ (Defect calls start) :=
        insts.bind fun _ => tables.bind fun _ => entry.map _
      rw [same] at all
      refine all.congr ⟨fun ⟨insts, tables, entry⟩ => ?_, fun sound => ?_⟩
      · rw [follows.code] at insts tables
        exact ⟨once, fun inst member => insts inst (Array.mem_toList_iff.mpr member),
          fun table member => tables table (Array.mem_toList_iff.mpr member), entry⟩
      · rw [follows.code]
        exact ⟨fun inst member => sound.insts inst (Array.mem_toList_iff.mp member),
          fun table member => sound.tables table (Array.mem_toList_iff.mp member), sound.start⟩

/-- Well-formed code makes a program of those that assembling ends with. -/
theorem WellFormed.finished {calls : List Call} {start : Target} (sound : WellFormed calls start)
    (fits : Call.Fits calls) : (Call.patched calls start).Finished := by
  obtain ⟨asm, assembled, follows⟩ := Call.assemble?_follows fits
  cases follows.finish_decides start with
  | accept _ done => exact ⟨asm, start, Call.assemble?_built assembled, done⟩
  | reject unsound _ _ => exact (unsound sound).elim

/-- Calls that fit are carried out. The code that they assemble can be finished exactly if it is
well formed, whatever the start; the program is then that code with every label replaced by the
number of instructions emitted before the label is bound. Otherwise the error names a defect of the
code. -/
theorem Call.finish_accepts_exactly_well_formed {calls : List Call} (fits : Call.Fits calls)
    (start : Target) :
    ∃ asm, Call.assemble? calls = some asm ∧
      ((∃ program, asm.finish start = .ok program) ↔ WellFormed calls start) ∧
      (∀ program, asm.finish start = .ok program → program = Call.patched calls start) ∧
      ∀ error, asm.finish start = .error error → Defect calls start error := by
  obtain ⟨asm, assembled, follows⟩ := Call.assemble?_follows fits
  refine ⟨asm, assembled, ?_⟩
  cases follows.finish_decides start with
  | accept sound done =>
      rw [done]
      refine ⟨⟨fun _ => sound, fun _ => ⟨_, rfl⟩⟩, fun program same => ?_, fun error same => ?_⟩
      · exact (Except.ok.inj same).symm
      · cases same
  | reject unsound done present =>
      rw [done]
      refine ⟨⟨fun ⟨program, same⟩ => ?_, fun sound => (unsound sound).elim⟩,
        fun program same => ?_, fun error same => ?_⟩
      · cases same
      · cases same
      · cases same
        exact present

/-- Calls with a label that is bound behind its uses, and a successor that leads nowhere but is not
used. -/
def Call.forward : List Call :=
  [.label, .literal #[0x61], .memoPoint ⟨.null, true, false⟩,
    .emit (.memo (.treeLookup ⟨0⟩ .null (.label ⟨0⟩))),
    .emitTo (.test (.literal ⟨0⟩) .once) (.label ⟨0⟩), .bind ⟨0⟩,
    .emitTo (.control .ret) (.inst ⟨9⟩)]

theorem Call.wellFormed_forward : WellFormed Call.forward (.label ⟨0⟩) where
  once label := by
    by_cases bound : (⟨0⟩ : Label) = label <;>
      simp [Call.forward, binds, bound]
  insts inst member := by
    have insts : (code Call.forward).insts =
        #[exitInst false (.inst .exitFail), exitInst true (.inst .exitOk),
          ⟨.memo (.treeLookup ⟨0⟩ .null (.label ⟨0⟩)), .inst ⟨3⟩⟩,
          ⟨.test (.literal ⟨0⟩) .once, .label ⟨0⟩⟩, ⟨.control .ret, .inst ⟨9⟩⟩] := rfl
    -- The ends of a run and the return name nothing.
    have bare (op : ControlOp Target) (id : InstId) (unused : (Op.control op).usesNext = false)
        (targets : (Op.control op).targets = []) :
        Inst.Sound Call.forward ⟨.control op, .inst id⟩ := by
      constructor <;> simp [Bound, unused, targets, Op.sets, Op.literals, Op.tables, Op.memoId?]
    rw [insts] at member
    simp only [List.mem_toArray, List.mem_cons, List.not_mem_nil, or_false] at member
    obtain rfl | rfl | rfl | rfl | rfl := member
    · exact bare _ _ rfl rfl
    · exact bare _ _ rfl rfl
    · constructor
      · exact trivial
      · exact fun _ => by decide
      · intro target named
        cases List.mem_singleton.mp named
        exact ⟨rfl, by decide⟩
      · exact List.forall_mem_nil _
      · exact List.forall_mem_nil _
      · exact List.forall_mem_nil _
      · intro id named
        cases named
        exact ⟨⟨.null, true, false⟩, rfl, fun mode needed => (Option.some.inj needed).symm⟩
    · constructor
      · exact rfl
      · exact fun _ => by decide
      · exact List.forall_mem_nil _
      · exact List.forall_mem_nil _
      · intro id named
        cases List.mem_singleton.mp named
        decide
      · exact List.forall_mem_nil _
      · intro id named
        cases named
    · exact bare _ _ rfl rfl
  tables table member := absurd (Array.mem_toList_iff.mpr member) List.not_mem_nil
  start := ⟨rfl, by decide⟩

theorem Call.finish_accepts_exactly_well_formed_forward :
    Call.Fits Call.forward ∧ placeOf Call.forward ⟨0⟩ = ⟨4⟩ ∧
      ∃ asm, Call.assemble? Call.forward = some asm ∧
        asm.finish (.label ⟨0⟩) = .ok (Call.patched Call.forward (.label ⟨0⟩)) ∧
        ¬ WellFormed Call.forward (.label ⟨1⟩) := by
  have known : ∀ index label, Call.forward[index]? = some (.bind label) →
      label.index < (Call.forward.take index).countP Call.isLabel := by
    intro index label found
    rcases index with _ | _ | _ | _ | _ | _ | _ | index <;> simp [Call.forward] at found
    subst found
    decide
  have fits : Call.Fits Call.forward :=
    ⟨by decide, by decide, by decide, by decide, by decide, by decide, by decide, known⟩
  obtain ⟨asm, assembled, accepts, patches, _⟩ :=
    Call.finish_accepts_exactly_well_formed fits (.label ⟨0⟩)
  obtain ⟨program, done⟩ := accepts.mpr Call.wellFormed_forward
  refine ⟨fits, rfl, asm, assembled, patches program done ▸ done, fun sound => ?_⟩
  have bound : Call.forward.any (binds ⟨1⟩) = true := sound.start.1
  exact absurd bound (by decide)

end Packrat
