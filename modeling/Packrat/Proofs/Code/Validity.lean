/-
What finishing code guarantees. Operands may hold any handle at all while code is assembled; once it is
finished, every place that an instruction may lead to and every entry that it refers to is in the program.
-/

import Packrat.Code.Listing
import Packrat.Proofs.Code.Checks

namespace Packrat

/-! ### Replacing targets -/

section Traverse

variable {t u ε : Type} {f : t → Except ε u}

/-- An operation whose targets were replaced uses its successor as before, and each of its targets
replaces one. -/
structure Op.Replaces (f : t → Except ε u) (op : Op t) (op' : Op u) : Prop where
  usesNext : op'.usesNext = op.usesNext
  targets : ∀ target ∈ op'.targets, ∃ source ∈ op.targets, f source = .ok target

theorem Op.Replaces.none {op : Op t} {op' : Op u} (usesNext : op'.usesNext = op.usesNext)
    (targets : op'.targets = []) : Op.Replaces f op op' :=
  ⟨usesNext, fun target member => by rw [targets] at member; cases member⟩

theorem Op.Replaces.one {op : Op t} {op' : Op u} {source : t} {target : u}
    (usesNext : op'.usesNext = op.usesNext) (before : op.targets = [source])
    (after : op'.targets = [target]) (replaced : f source = .ok target) : Op.Replaces f op op' := by
  refine ⟨usesNext, fun other member => ⟨source, ?_, ?_⟩⟩
  · rw [before]
    exact List.mem_singleton.mpr rfl
  · rw [after] at member
    rw [List.mem_singleton.mp member]
    exact replaced

theorem Op.replaces_traverse {op : Op t} {op' : Op u} (done : op.traverse f = .ok op') :
    Op.Replaces f op op' := by
  cases op with
  | control op =>
      obtain ⟨inner, inside, same⟩ := bind_ok done
      cases same
      cases op with
      | jump target =>
          obtain ⟨place, replaced, same⟩ := bind_ok inside
          cases same
          exact .one rfl rfl rfl replaced
      | call target after rule =>
          obtain ⟨place, replaced, inside⟩ := bind_ok inside
          obtain ⟨place', replaced', same⟩ := bind_ok inside
          cases same
          refine ⟨rfl, fun other member => ?_⟩
          rcases List.mem_cons.mp member with rfl | member
          · exact ⟨target, List.mem_cons_self, replaced⟩
          · rw [List.mem_singleton.mp member]
            exact ⟨after, List.mem_cons_of_mem target List.mem_cons_self, replaced'⟩
      | alt failure =>
          obtain ⟨place, replaced, same⟩ := bind_ok inside
          cases same
          exact .one rfl rfl rfl replaced
      | nop | exit | pos | back | move | ret | succ | fail | guard | step =>
          cases inside
          exact .none rfl rfl
  | count op =>
      obtain ⟨inner, inside, same⟩ := bind_ok done
      cases same
      cases op with
      | scan mask shift =>
          cases inside
          exact .none rfl rfl
      | dec left =>
          obtain ⟨place, replaced, same⟩ := bind_ok inside
          cases same
          exact .one rfl rfl rfl replaced
  | memo op =>
      obtain ⟨inner, inside, same⟩ := bind_ok done
      cases same
      cases op with
      | lookup point skip =>
          obtain ⟨place, replaced, same⟩ := bind_ok inside
          cases same
          exact .one rfl rfl rfl replaced
      | treeLookup point label skip =>
          obtain ⟨place, replaced, same⟩ := bind_ok inside
          cases same
          exact .one rfl rfl rfl replaced
      | store | storeFailure | treeStore =>
          cases inside
          exact .none rfl rfl
  | test | dispatch | tree | bindings =>
      cases done
      exact .none rfl rfl

end Traverse

/-! ### Checks -/

namespace Assembler

variable {asm : Assembler} {place : InstId} {op : Op InstId}

theorem finishInst_ok {index : Nat} {inst : Inst Target} {finished : Inst InstId}
    (done : asm.finishInst index inst = .ok finished) :
    (inst.op.usesNext = true → finished.next.index < asm.size) ∧
      inst.op.traverse (asm.resolveWithin ⟨index⟩) = .ok finished.op ∧
      asm.checkPools ⟨index⟩ finished.op = .ok () ∧ asm.checkMemo ⟨index⟩ finished.op = .ok () := by
  obtain ⟨next, resolved, done⟩ := bind_ok done
  by_cases outside : inst.op.usesNext = true ∧ asm.size ≤ next.index
  · simp only [outside, and_self, if_true] at done
    cases done
  · simp only [outside, if_false] at done
    obtain ⟨op, replaced, done⟩ := bind_ok done
    obtain ⟨_, pools, done⟩ := bind_ok done
    obtain ⟨_, memo, done⟩ := bind_ok done
    cases done
    refine ⟨fun uses => ?_, replaced, pools, memo⟩
    exact Nat.lt_of_not_le fun beyond => outside ⟨uses, beyond⟩

/-- A place that is checked against the size of the code lies in it. -/
theorem bounded_ok {target : Target} {size : Nat} {error : InstId → AssemblyError} {id : InstId}
    (done : (do
      let id ← asm.resolve target
      if id.index < size then .ok id else .error (error id)) = .ok id) : id.index < size := by
  obtain ⟨found, resolved, done⟩ := bind_ok done
  by_cases within : found.index < size
  · rw [if_pos within] at done
    cases done
    exact within
  · rw [if_neg within] at done
    cases done

theorem finishTable_ok {index : Nat} {table : DispatchTable Target}
    {finished : DispatchTable InstId} (done : asm.finishTable index table = .ok finished) :
    (∀ slot : Fin 257, (finished.branches.get slot).toNat < finished.targets.size) ∧
      ∀ target ∈ finished.targets, target.index < asm.size := by
  obtain ⟨targets, branches, done⟩ := bind_ok done
  cases beyond : (List.finRange 257).find? fun slot =>
      targets.length ≤ table.branches[slot].toNat with
  | some slot => simp only [beyond] at done; cases done
  | none =>
      simp only [beyond] at done
      cases done
      constructor
      · intro slot
        have inside := List.find?_eq_none.mp beyond slot (List.mem_finRange slot)
        exact Nat.lt_of_not_le fun outside => inside (decide_eq_true outside)
      · intro target member
        obtain ⟨place, found⟩ := List.mem_iff_getElem?.mp (List.mem_toArray.mp member)
        obtain ⟨branch, _, made⟩ := checkedMap_made branches found
        exact bounded_ok made

section Finish

variable {start : Target} {program : Program} (done : asm.finish start = .ok program)

include done

theorem inst_of_finish {place : InstId} {inst : Inst InstId}
    (found : program.inst? place = some inst) :
    ∃ source, asm.finishInst place.index source = .ok inst := by
  obtain ⟨insts, tables, entry, code, _, _, same⟩ := finish_ok done
  subst same
  change insts.toArray[place.index]? = some inst at found
  rw [List.getElem?_toArray] at found
  obtain ⟨source, _, made⟩ := checkedMap_made code found
  rw [Nat.zero_add] at made
  exact ⟨source, made⟩

theorem table_of_finish {table : DispatchTable InstId} (member : table ∈ program.dispatch) :
    ∃ index source, asm.finishTable index source = .ok table := by
  obtain ⟨insts, tables, entry, _, dispatch, _, same⟩ := finish_ok done
  subst same
  obtain ⟨index, found⟩ := List.mem_iff_getElem?.mp (List.mem_toArray.mp member)
  obtain ⟨source, _, made⟩ := checkedMap_made dispatch found
  exact ⟨_, source, made⟩

theorem size_of_finish : program.size = asm.size := by
  obtain ⟨insts, tables, entry, code, _, _, same⟩ := finish_ok done
  subst same
  change insts.toArray.size = asm.insts.size
  rw [List.size_toArray, length_checkedMap code, Array.length_toList]

theorem pools_of_finish : program.sets = asm.sets ∧ program.literals = asm.literals ∧
    program.memoPoints = asm.memoPoints ∧ program.dispatch.size = asm.dispatch.size := by
  obtain ⟨insts, tables, entry, _, dispatch, _, same⟩ := finish_ok done
  subst same
  refine ⟨rfl, rfl, rfl, ?_⟩
  rw [List.size_toArray, length_checkedMap dispatch, Array.length_toList]

theorem start_of_finish : program.start.index < asm.size := by
  obtain ⟨insts, tables, entry, _, _, place, same⟩ := finish_ok done
  subst same
  exact bounded_ok place

theorem tables_within (table : DispatchTable InstId) (member : table ∈ program.dispatch) :
    table.Within program := by
  obtain ⟨index, source, made⟩ := table_of_finish done member
  obtain ⟨branches, targets⟩ := finishTable_ok made
  rw [← size_of_finish done] at targets
  exact ⟨branches, targets⟩

theorem op_within {place : InstId} {inst : Inst InstId}
    (found : program.inst? place = some inst) : inst.op.Within program := by
  obtain ⟨source, made⟩ := inst_of_finish done found
  obtain ⟨_, replaced, pools, memo⟩ := finishInst_ok made
  have pooled : Decides (asm.checkPools ⟨place.index⟩ inst.op) _ () fun _ => True :=
    asm.checkPools_decides _ _ (fun _ _ _ => trivial) (fun _ _ _ => trivial) fun _ _ _ => trivial
  have pointed : Decides (asm.checkMemo ⟨place.index⟩ inst.op) _ () fun _ => True :=
    asm.checkMemo_decides _ _ (fun _ _ _ => trivial) fun _ _ _ _ _ _ _ => trivial
  obtain ⟨sets, literals, tables⟩ := pooled.of_ok pools
  obtain ⟨sameSets, sameLiterals, samePoints, sameTables⟩ := pools_of_finish done
  constructor
  · intro target member
    obtain ⟨_, _, resolved⟩ := (Op.replaces_traverse replaced).targets target member
    rw [size_of_finish done]
    exact bounded_ok resolved
  · intro id member
    rw [sameSets]
    exact sets id member
  · intro id member
    rw [sameLiterals]
    exact literals id member
  · intro id member
    have inside : id.index < program.dispatch.size := by
      rw [sameTables]
      exact tables id member
    exact ⟨_, Array.getElem?_eq_getElem inside, tables_within done _ (Array.getElem_mem inside)⟩
  · intro id named
    rw [samePoints]
    obtain ⟨point, known, _⟩ := pointed.of_ok memo id named
    exact (Array.getElem?_eq_some_iff.mp known).1

theorem next_within {place : InstId} {inst : Inst InstId}
    (found : program.inst? place = some inst) (uses : inst.op.usesNext = true) :
    inst.next.index < program.size := by
  obtain ⟨source, made⟩ := inst_of_finish done found
  obtain ⟨next, replaced, _, _⟩ := finishInst_ok made
  rw [(Op.replaces_traverse replaced).usesNext] at uses
  rw [size_of_finish done]
  exact next uses

end Finish

end Assembler

/-! ### Finished programs -/

/-- Every place that is named in a program and every entry that is referred to is there. -/
structure Program.Valid (program : Program) : Prop where
  ops : ∀ place inst, program.inst? place = some inst → inst.op.Within program
  nexts : ∀ place inst, program.inst? place = some inst → inst.op.usesNext = true →
    inst.next.index < program.size
  tables : ∀ table ∈ program.dispatch, table.Within program
  exits : 2 ≤ program.size
  start : program.start.index < program.size

theorem Program.Finished.valid {program : Program} (finished : program.Finished) :
    program.Valid := by
  obtain ⟨_, _, ok⟩ := finished.exits
  obtain ⟨asm, start, _, done⟩ := finished
  constructor
  · intro place inst found
    exact Assembler.op_within done found
  · intro place inst found uses
    exact Assembler.next_within done found uses
  · exact Assembler.tables_within done
  · exact (Array.getElem?_eq_some_iff.mp ok).1
  · rw [Assembler.size_of_finish done]
    exact Assembler.start_of_finish done

/-! ### Listings -/

theorem Op.Within.operands? {program : Program} {op : Op InstId} (within : op.Within program) :
    ∃ text, program.operands? op = some text := by
  have literal {id : LitId} (member : id ∈ op.literals) :
      ∃ text, program.literalText? id = some text := by
    obtain ⟨bytes, found⟩ := within.literal? member
    exact ⟨bytes.escaped, by rw [Code.literalText?, found]; rfl⟩
  have point {id : MemoId} (named : op.memoId? = some id) :
      ∃ name, program.memoName? id = some name := by
    obtain ⟨info, found⟩ := within.memoPoint? named
    exact ⟨program.name info.label, by rw [Code.memoName?, found]; rfl⟩
  cases op with
  | control op => exact ⟨_, rfl⟩
  | count op => exact ⟨_, rfl⟩
  | test pattern policy =>
      cases pattern with
      | byte b => exact ⟨_, rfl⟩
      | any => exact ⟨_, rfl⟩
      | set id =>
          obtain ⟨set, found⟩ := within.byteSet? (List.mem_singleton.mpr rfl)
          simp only [Program.operands?, Code.patternText?, found]
          exact ⟨_, rfl⟩
      | literal id =>
          obtain ⟨text, found⟩ := literal (List.mem_singleton.mpr rfl)
          simp only [Program.operands?, Code.patternText?, found]
          exact ⟨_, rfl⟩
  | dispatch id consume =>
      obtain ⟨table, found, _⟩ := within.tables id (List.mem_singleton.mpr rfl)
      simp only [Program.operands?, Program.dispatchText?, found]
      exact ⟨_, rfl⟩
  | tree op =>
      cases op with
      | close shift tag value =>
          cases value with
          | none => exact ⟨_, rfl⟩
          | some value =>
              obtain ⟨text, found⟩ := literal (List.mem_singleton.mpr rfl)
              simp only [Program.operands?, Program.treeText?, found]
              exact ⟨_, rfl⟩
      | replace value =>
          obtain ⟨text, found⟩ := literal (List.mem_singleton.mpr rfl)
          simp only [Program.operands?, Program.treeText?, found]
          exact ⟨_, rfl⟩
      | node | tag | fold | push | pop | checkpoint | emit => exact ⟨_, rfl⟩
  | bindings op =>
      cases op with
      | holds table lit =>
          obtain ⟨text, found⟩ := literal (List.mem_singleton.mpr rfl)
          simp only [Program.operands?, Program.bindingText?, found]
          exact ⟨_, rfl⟩
      | enter | leave | mask | define | bound | consume | isLatest | isVisible => exact ⟨_, rfl⟩
  | memo op =>
      cases op <;> obtain ⟨name, found⟩ := point rfl
      all_goals
        simp only [Program.operands?, Program.memoText?, found]
        exact ⟨_, rfl⟩

theorem Program.lines?_within {program : Program} (place : InstId) (insts : List (Inst InstId))
    (within : ∀ inst ∈ insts, inst.op.Within program) :
    ∃ lines, program.lines? place insts = some lines := by
  induction insts generalizing place with
  | nil => exact ⟨[], rfl⟩
  | cons inst rest ih =>
      obtain ⟨text, operands⟩ := (within inst List.mem_cons_self).operands?
      obtain ⟨lines, others⟩ := ih place.succ fun other member =>
        within other (List.mem_cons_of_mem inst member)
      simp only [Program.lines?, Program.line?, operands, others]
      exact ⟨_, rfl⟩

/-- A listing never refers to an entry that is not there. -/
theorem Program.Valid.listing? {program : Program} (valid : program.Valid) :
    ∃ text, program.listing? = some text := by
  have within : ∀ inst ∈ program.insts.toList, inst.op.Within program := by
    intro inst member
    obtain ⟨index, found⟩ := List.mem_iff_getElem?.mp member
    rw [Array.getElem?_toList] at found
    exact valid.ops ⟨index⟩ inst found
  obtain ⟨lines, found⟩ := Program.lines?_within ⟨0⟩ program.insts.toList within
  exact ⟨_, by rw [Program.listing?, found]; rfl⟩

end Packrat
