/-
Checks that decide. Each check of finishing is described on its own: it accepts exactly what it is
for, says what it makes of it, and refuses the rest for a defect that is there. Checks in a row
decide together what each of them decides.
-/

import Packrat.Proofs.Code.Within

namespace Packrat

/-! ### Other targets -/

section Map

variable {t u : Type} (f : t → u)

def ControlOp.map : ControlOp t → ControlOp u
  | .nop name => .nop name
  | .exit matched => .exit matched
  | .pos => .pos
  | .back => .back
  | .move shift => .move shift
  | .jump target => .jump (f target)
  | .call target after rule => .call (f target) (f after) rule
  | .ret => .ret
  | .alt failure => .alt (f failure)
  | .succ => .succ
  | .fail => .fail
  | .guard => .guard
  | .step => .step

def CountOp.map : CountOp t → CountOp u
  | .scan mask shift => .scan mask shift
  | .dec done => .dec (f done)

def MemoOp.map : MemoOp t → MemoOp u
  | .lookup point skip => .lookup point (f skip)
  | .store point => .store point
  | .storeFailure point => .storeFailure point
  | .treeLookup point label skip => .treeLookup point label (f skip)
  | .treeStore point => .treeStore point

def Op.map : Op t → Op u
  | .control op => .control (op.map f)
  | .test pattern policy => .test pattern policy
  | .dispatch table consume => .dispatch table consume
  | .tree op => .tree op
  | .bindings op => .bindings op
  | .count op => .count (op.map f)
  | .memo op => .memo (op.map f)

def Inst.map (inst : Inst t) : Inst u :=
  ⟨inst.op.map f, f inst.next⟩

def DispatchTable.map (table : DispatchTable t) : DispatchTable u :=
  ⟨table.branches, table.targets.map f⟩

def Code.map (code : Code t) : Code u where
  insts := code.insts.map (Inst.map f)
  sets := code.sets
  literals := code.literals
  dispatch := code.dispatch.map (DispatchTable.map f)
  memoPoints := code.memoPoints
  symbols := code.symbols

end Map

/-! ### Checks -/

/-- A check accepts exactly what is good, with the given value, and refuses the rest for a
defect. -/
inductive Decides {ε α : Type} (result : Except ε α) (good : Prop) (value : α) (defect : ε → Prop) :
    Prop
  | accept (holds : good) (same : result = .ok value)
  | reject (fails : ¬ good) {error : ε} (same : result = .error error) (present : defect error)

namespace Decides

variable {ε α β : Type} {result : Except ε α} {good good' : Prop} {value : α} {defect : ε → Prop}

theorem of_ok (decides : Decides result good value defect) {other : α}
    (done : result = .ok other) : good := by
  cases decides with
  | accept holds => exact holds
  | reject _ refused => rw [refused] at done; cases done

theorem congr (decides : Decides result good value defect) (same : good ↔ good') :
    Decides result good' value defect := by
  cases decides with
  | accept holds done => exact .accept (same.mp holds) done
  | reject fails done present => exact .reject (fun holds => fails (same.mpr holds)) done present

theorem bind {rest : α → Except ε β} {other : β} (first : Decides result good value defect)
    (next : good → Decides (rest value) good' other defect) :
    Decides (result >>= rest) (good ∧ good') other defect := by
  cases first with
  | reject fails done present =>
      rw [done]
      exact .reject (fun both => fails both.1) rfl present
  | accept holds done =>
      rw [done]
      cases next holds with
      | accept holds' done' => exact .accept ⟨holds, holds'⟩ done'
      | reject fails done' present => exact .reject (fun both => fails both.2) done' present

theorem map (first : Decides result good value defect) (make : α → β) :
    Decides (result >>= fun value => .ok (make value)) good (make value) defect := by
  cases first with
  | accept holds done => exact .accept holds (by rw [done]; rfl)
  | reject fails done present => exact .reject fails (by rw [done]; rfl) present

theorem check {condition : Prop} [Decidable condition] {error : ε} (same : condition ↔ good)
    (present : ¬ good → defect error) (value : α) :
    Decides (if condition then .ok value else .error error) good value defect := by
  by_cases holds : condition
  · rw [if_pos holds]
    exact .accept (same.mp holds) rfl
  · rw [if_neg holds]
    have fails : ¬ good := fun good => holds (same.mpr good)
    exact .reject fails rfl (present fails)

end Decides

section Each

variable {t u ε : Type} {f : t → Except ε u} {g : t → u} {good : t → Prop} {defect : ε → Prop}

/-- The targets of an operation are checked and replaced one by one. -/
theorem Op.traverse_decides (op : Op t)
    (each : ∀ target ∈ op.targets, Decides (f target) (good target) (g target) defect) :
    Decides (op.traverse f) (∀ target ∈ op.targets, good target) (op.map g) defect := by
  have one {target : t} {α : Type} {result : Except ε α} {value : α}
      (only : Decides result (good target) value defect) :
      Decides result (∀ other ∈ [target], good other) value defect :=
    only.congr List.forall_mem_singleton.symm
  have untouched (op : Op u) :
      Decides (.ok op : Except ε (Op u)) (∀ target ∈ ([] : List t), good target) op defect :=
    .accept (fun target member => (List.not_mem_nil member).elim) rfl
  cases op with
  | control op =>
      cases op with
      | jump target =>
          exact one (((each target List.mem_cons_self).map ControlOp.jump).map Op.control)
      | call target after rule =>
          have second := each after (List.mem_cons_of_mem target List.mem_cons_self)
          have both : Decides ((ControlOp.call target after rule).traverse f)
              (good target ∧ good after) (.call (g target) (g after) rule) defect :=
            (each target List.mem_cons_self).bind fun _ =>
              second.map fun place => ControlOp.call (g target) place rule
          refine (both.map Op.control).congr ?_
          rw [Op.targets, List.forall_mem_cons, List.forall_mem_singleton]
      | alt failure =>
          exact one (((each failure List.mem_cons_self).map ControlOp.alt).map Op.control)
      | nop | exit | pos | back | move | ret | succ | fail | guard | step =>
          exact untouched _
  | count op =>
      cases op with
      | scan mask shift => exact untouched _
      | dec done => exact one (((each done List.mem_cons_self).map CountOp.dec).map Op.count)
  | memo op =>
      cases op with
      | lookup point skip =>
          exact one (((each skip List.mem_cons_self).map (MemoOp.lookup point)).map Op.memo)
      | treeLookup point label skip =>
          have skipped := (each skip List.mem_cons_self).map (MemoOp.treeLookup point label)
          exact one (skipped.map Op.memo)
      | store | storeFailure | treeStore => exact untouched _
  | test | dispatch | tree | bindings => exact untouched _

theorem checkedMap_decides {α β : Type} {f : Nat → α → Except ε β} {good : α → Prop}
    {value : α → β} (entries : List α) (start : Nat)
    (each : ∀ index entry, entries[index]? = some entry →
      Decides (f (start + index) entry) (good entry) (value entry) defect) :
    Decides (checkedMap f start entries) (∀ entry ∈ entries, good entry) (entries.map value)
      defect := by
  induction entries generalizing start with
  | nil => exact .accept (fun entry member => (List.not_mem_nil member).elim) rfl
  | cons first rest ih =>
      have others := ih (start + 1) fun index entry found => by
        rw [Nat.add_assoc, Nat.add_comm 1 index]
        exact each (index + 1) entry found
      have both : Decides (checkedMap f start (first :: rest))
          (good first ∧ ∀ entry ∈ rest, good entry) (value first :: rest.map value) defect :=
        (each 0 first rfl).bind fun _ => others.map (value first :: ·)
      exact both.congr List.forall_mem_cons.symm

end Each

theorem Op.memoId?_map {t u : Type} (f : t → u) (op : Op t) :
    (op.map f).memoId? = op.memoId? := by
  cases op with
  | memo op => cases op <;> rfl
  | control | test | dispatch | tree | bindings | count => rfl

theorem Op.literals_map {t u : Type} (f : t → u) (op : Op t) :
    (op.map f).literals = op.literals := by
  cases op with
  | tree op =>
      cases op with
      | close shift tag value => cases value <;> rfl
      | node | tag | replace | fold | push | pop | checkpoint | emit => rfl
  | bindings op => cases op <;> rfl
  | test pattern policy => cases pattern <;> rfl
  | control | dispatch | count | memo => rfl

theorem Op.sets_map {t u : Type} (f : t → u) (op : Op t) : (op.map f).sets = op.sets := by
  cases op with
  | test pattern policy => cases pattern <;> rfl
  | control | dispatch | tree | bindings | count | memo => rfl

theorem Op.tables_map {t u : Type} (f : t → u) (op : Op t) : (op.map f).tables = op.tables := by
  cases op <;> rfl

theorem Op.mnemonic_map {t u : Type} (f : t → u) (op : Op t) :
    (op.map f).mnemonic = op.mnemonic := by
  cases op with
  | control op => cases op <;> rfl
  | count op => cases op <;> rfl
  | memo op => cases op <;> rfl
  | test | dispatch | tree | bindings => rfl

def Op.treeMode? {t : Type} : Op t → Option Bool
  | .memo op => op.treeMode?
  | _ => none

theorem Op.treeMode?_map {t u : Type} (f : t → u) (op : Op t) :
    (op.map f).treeMode? = op.treeMode? := by
  cases op with
  | memo op => cases op <;> rfl
  | control | test | dispatch | tree | bindings | count => rfl

/-! ### Operands -/

namespace Assembler

variable (asm : Assembler) (place : InstId) (op : Op InstId) {defect : AssemblyError → Prop}

theorem checkPools_decides
    (set : ∀ id ∈ op.sets, asm.sets.size ≤ id.index →
      defect (.unknownPoolEntry place "byte set"))
    (literal : ∀ id ∈ op.literals, asm.literals.size ≤ id.index →
      defect (.unknownPoolEntry place "literal"))
    (table : ∀ id ∈ op.tables, asm.dispatch.size ≤ id.index →
      defect (.unknownPoolEntry place "dispatch table")) :
    Decides (asm.checkPools place op)
      ((∀ id ∈ op.sets, id.index < asm.sets.size) ∧
        (∀ id ∈ op.literals, id.index < asm.literals.size) ∧
        ∀ id ∈ op.tables, id.index < asm.dispatch.size) () defect := by
  have there {α : Type} {entries : Array α} {index : Nat} :
      entries[index]?.isSome = true ↔ index < entries.size := by
    constructor
    · intro some
      obtain ⟨entry, found⟩ := Option.isSome_iff_exists.mp some
      exact (Array.getElem?_eq_some_iff.mp found).1
    · intro inside
      rw [Array.getElem?_eq_getElem inside]
      rfl
  have literals (sets : op.sets = []) (tables : op.tables = []) :
      Decides
        (if op.literals.all fun id => (asm.literal? id).isSome then
          (.ok () : Except AssemblyError Unit)
        else .error (.unknownPoolEntry place "literal"))
        ((∀ id ∈ op.sets, id.index < asm.sets.size) ∧
          (∀ id ∈ op.literals, id.index < asm.literals.size) ∧
          ∀ id ∈ op.tables, id.index < asm.dispatch.size) () defect := by
    have known : (op.literals.all fun id => (asm.literal? id).isSome) = true ↔
        ∀ id ∈ op.literals, id.index < asm.literals.size := by
      rw [List.all_eq_true]
      exact forall₂_congr fun id _ => there
    refine (Decides.check known (fun lacks => ?_) ()).congr ?_
    · obtain ⟨id, named, missing⟩ : ∃ id ∈ op.literals, asm.literals.size ≤ id.index := by
        simpa only [Classical.not_forall, Nat.not_lt, exists_prop] using lacks
      exact literal id named missing
    · rw [sets, tables]
      simp only [List.not_mem_nil, false_implies, implies_true, true_and, and_true]
  cases op with
  | test pattern policy =>
      cases pattern with
      | set id =>
          have named : id ∈ (Op.test (.set id) policy : Op InstId).sets :=
            List.mem_singleton.mpr rfl
          refine (Decides.check there (fun lacks => ?_) ()).congr ?_
          · exact set id named (Nat.le_of_not_lt lacks)
          · simp only [Op.sets, Op.literals, Op.tables, List.forall_mem_singleton, List.not_mem_nil,
              false_implies, implies_true, and_true]
      | literal id => exact literals rfl rfl
      | byte | any => exact literals rfl rfl
  | dispatch id consume =>
      have named : id ∈ (Op.dispatch id consume : Op InstId).tables := List.mem_singleton.mpr rfl
      refine (Decides.check there (fun lacks => ?_) ()).congr ?_
      · exact table id named (Nat.le_of_not_lt lacks)
      · simp only [Op.sets, Op.literals, Op.tables, List.forall_mem_singleton, List.not_mem_nil,
          false_implies, implies_true, true_and]
  | control | tree | bindings | count | memo => exact literals rfl rfl

theorem checkMemo_decides
    (unknown : ∀ id, op.memoId? = some id → asm.memoPoints.size ≤ id.index →
      defect (.unknownMemoPoint place id asm.memoPoints.size))
    (mismatch : ∀ id point mode, op.memoId? = some id → asm.memoPoint? id = some point →
      op.treeMode? = some mode → mode ≠ point.treeMutating →
      defect (.memoModeMismatch place op.mnemonic id)) :
    Decides (asm.checkMemo place op)
      (∀ id, op.memoId? = some id → ∃ point, asm.memoPoint? id = some point ∧
        ∀ mode, op.treeMode? = some mode → mode = point.treeMutating) () defect := by
  cases op with
  | control | test | dispatch | tree | bindings | count =>
      exact .accept (fun id named => by cases named) rfl
  | memo op =>
      unfold checkMemo
      dsimp only
      cases named : (Op.memo op).memoId? with
      | none => exact .accept (fun id point => by cases point) rfl
      | some id =>
          dsimp only
          cases known : asm.memoPoint? id with
          | none =>
              have missing := Array.getElem?_eq_none_iff.mp known
              refine .reject (fun all => ?_) rfl (unknown id named missing)
              obtain ⟨point, there, _⟩ := all id rfl
              rw [known] at there
              cases there
          | some point =>
              have only :
                  (∀ mode, (Op.memo op).treeMode? = some mode → mode = point.treeMutating) ↔
                  ∀ other, some id = some other → ∃ point, asm.memoPoint? other = some point ∧
                    ∀ mode, (Op.memo op).treeMode? = some mode → mode = point.treeMutating := by
                constructor
                · intro fits other same
                  cases same
                  exact ⟨point, known, fits⟩
                · intro all
                  obtain ⟨other, there, fits⟩ := all id rfl
                  rw [known] at there
                  cases there
                  exact fits
              dsimp only [Op.treeMode?] at only mismatch ⊢
              refine Decides.congr ?_ only
              cases needed : op.treeMode? with
              | none => exact .accept (fun mode same => by cases same) rfl
              | some mode =>
                  have fits : mode = point.treeMutating ↔
                      ∀ other, some mode = some other → other = point.treeMutating :=
                    ⟨fun same other equal => Option.some.inj equal ▸ same, fun all => all mode rfl⟩
                  exact .check fits (fun lacks =>
                    mismatch id point mode named known needed fun same => lacks (fits.mp same)) ()

end Assembler

end Packrat
