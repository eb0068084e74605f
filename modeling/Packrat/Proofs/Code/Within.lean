/-
Handles that stay inside a program: the places that an instruction may lead to, and the entries of
the pools that it refers to. Finishing code checks every one of them.
-/

import Packrat.Proofs.Code.Finished

namespace Packrat

variable {t : Type}

def Op.sets : Op t → List SetId
  | .test (.set id) _ => [id]
  | _ => []

def Op.tables : Op t → List DispatchId
  | .dispatch id _ => [id]
  | _ => []

structure DispatchTable.Within (program : Program) (table : DispatchTable InstId) : Prop where
  branches : ∀ slot : Fin 257, (table.branches.get slot).toNat < table.targets.size
  targets : ∀ target ∈ table.targets, target.index < program.size

structure Op.Within (program : Program) (op : Op InstId) : Prop where
  targets : ∀ target ∈ op.targets, target.index < program.size
  sets : ∀ id ∈ op.sets, id.index < program.sets.size
  literals : ∀ id ∈ op.literals, id.index < program.literals.size
  tables : ∀ id ∈ op.tables, ∃ table, program.dispatch? id = some table ∧ table.Within program
  points : ∀ id, op.memoId? = some id → id.index < program.memoPoints.size

namespace Op.Within

variable {program : Program} {op : Op InstId}

theorem literal? (within : op.Within program) {id : LitId} (member : id ∈ op.literals) :
    ∃ bytes, program.literal? id = some bytes :=
  ⟨_, Array.getElem?_eq_getElem (within.literals id member)⟩

theorem byteSet? (within : op.Within program) {id : SetId} (member : id ∈ op.sets) :
    ∃ set, program.byteSet? id = some set :=
  ⟨_, Array.getElem?_eq_getElem (within.sets id member)⟩

theorem memoPoint? (within : op.Within program) {id : MemoId} (named : op.memoId? = some id) :
    ∃ point, program.memoPoint? id = some point :=
  ⟨_, Array.getElem?_eq_getElem (within.points id named)⟩

theorem pattern? {pattern : Pattern SetId LitId} {policy : Policy}
    (within : (Op.test pattern policy : Op InstId).Within program) :
    ∃ found, program.pattern? pattern = some found := by
  cases pattern with
  | byte b => exact ⟨_, rfl⟩
  | any => exact ⟨_, rfl⟩
  | set id =>
      obtain ⟨set, found⟩ := within.byteSet? (List.mem_singleton.mpr rfl)
      exact ⟨.set set, by rw [Code.pattern?, found]; rfl⟩
  | literal id =>
      obtain ⟨bytes, found⟩ := within.literal? (List.mem_singleton.mpr rfl)
      exact ⟨.literal bytes, by rw [Code.pattern?, found]; rfl⟩

end Op.Within

theorem DispatchTable.Within.target? {program : Program} {table : DispatchTable InstId}
    (within : table.Within program) (byte : Option UInt8) :
    ∃ target, table.target? byte = some target ∧ target.index < program.size := by
  have below := within.branches (slot byte)
  refine ⟨table.targets[table.branches[slot byte].toNat], Array.getElem?_eq_getElem below, ?_⟩
  exact within.targets _ (Array.getElem_mem below)

end Packrat
