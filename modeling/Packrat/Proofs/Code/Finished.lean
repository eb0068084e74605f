/-
Finished programs, and the two instructions that every one of them begins with. Assembling puts them
first and only ever adds behind them, and finishing leaves them where they are.
-/

import Packrat.Code.Assembly

namespace Packrat

theorem bind_ok {ε α β : Type} {first : Except ε α} {rest : α → Except ε β} {result : β}
    (done : first >>= rest = .ok result) : ∃ value, first = .ok value ∧ rest value = .ok result := by
  cases first with
  | error e => cases done
  | ok value => exact ⟨value, rfl, done⟩

inductive Assembler.Built : Assembler → Prop
  | initial : Built .initial
  | label {asm asm' : Assembler} {name : Label} (before : Built asm)
      (done : asm.label = .ok (name, asm')) : Built asm'
  | bind {asm asm' : Assembler} {name : Label} (before : Built asm)
      (done : asm.bind? name = some asm') : Built asm'
  | emitTo {asm asm' : Assembler} {op : Op Target} {next : Target} {id : InstId}
      (before : Built asm) (done : asm.emitTo op next = .ok (id, asm')) : Built asm'
  | emit {asm asm' : Assembler} {op : Op Target} {id : InstId} (before : Built asm)
      (done : asm.emit op = .ok (id, asm')) : Built asm'
  | intern {asm asm' : Assembler} {name : String} {sym : Symbol} (before : Built asm)
      (done : asm.intern name = .ok (sym, asm')) : Built asm'
  | byteSet {asm asm' : Assembler} {set : ByteSet} {id : SetId} (before : Built asm)
      (done : asm.byteSet set = .ok (id, asm')) : Built asm'
  | literal {asm asm' : Assembler} {bytes : Bytes} {id : LitId} (before : Built asm)
      (done : asm.literal bytes = .ok (id, asm')) : Built asm'
  | dispatchTable {asm asm' : Assembler} {table : DispatchTable Target} {id : DispatchId}
      (before : Built asm) (done : asm.dispatchTable table = .ok (id, asm')) : Built asm'
  | memoPoint {asm asm' : Assembler} {point : MemoPoint} {id : MemoId} (before : Built asm)
      (done : asm.memoPoint point = .ok (id, asm')) : Built asm'

def Program.Finished (program : Program) : Prop :=
  ∃ asm start, Assembler.Built asm ∧ asm.finish start = .ok program

def exitInst {t : Type} (matched : Bool) (next : t) : Inst t := ⟨.control (.exit matched), next⟩

namespace Assembler

theorem insts_of_emitTo {asm asm' : Assembler} {op : Op Target} {next : Target} {id : InstId}
    (done : asm.emitTo op next = .ok (id, asm')) : asm'.insts = asm.insts.push ⟨op, next⟩ := by
  unfold Assembler.emitTo at done
  cases fits : asm.nextId with
  | error e => rw [fits] at done; cases done
  | ok place => rw [fits] at done; cases done; rfl

theorem insts_of_emit {asm asm' : Assembler} {op : Op Target} {id : InstId}
    (done : asm.emit op = .ok (id, asm')) : ∃ next, asm'.insts = asm.insts.push ⟨op, next⟩ := by
  unfold Assembler.emit at done
  cases fits : asm.nextId with
  | error e => rw [fits] at done; cases done
  | ok place => rw [fits] at done; cases done; exact ⟨_, rfl⟩

theorem getElem?_push {insts : Array (Inst Target)} {index : Nat} {inst : Inst Target}
    (found : insts[index]? = some inst) (last : Inst Target) :
    (insts.push last)[index]? = some inst := by
  have within := (Array.getElem?_eq_some_iff.mp found).1
  rw [Array.getElem?_push_lt within, ← Array.getElem?_eq_getElem within, found]

/-- The two instructions that end a run stay the first ones. -/
theorem Built.exits {asm : Assembler} (built : Built asm) :
    asm.insts[0]? = some (exitInst false (.inst .exitFail)) ∧
      asm.insts[1]? = some (exitInst true (.inst .exitOk)) := by
  induction built with
  | initial => exact ⟨rfl, rfl⟩
  | emitTo _ done ih =>
      rw [insts_of_emitTo done]
      exact ⟨getElem?_push ih.1 _, getElem?_push ih.2 _⟩
  | emit _ done ih =>
      obtain ⟨next, same⟩ := insts_of_emit done
      rw [same]
      exact ⟨getElem?_push ih.1 _, getElem?_push ih.2 _⟩
  | bind _ done ih =>
      unfold Assembler.bind? at done
      split at done
      · cases done
      · split at done <;> cases done <;> exact ih
  | label _ done ih =>
      unfold Assembler.label at done
      split at done <;> cases done
      exact ih
  | intern _ done ih =>
      unfold Assembler.intern at done
      split at done <;> cases done
      exact ih
  | byteSet _ done ih =>
      unfold Assembler.byteSet at done
      split at done <;> cases done
      exact ih
  | literal _ done ih =>
      unfold Assembler.literal at done
      split at done <;> cases done
      exact ih
  | dispatchTable _ done ih =>
      unfold Assembler.dispatchTable at done
      split at done <;> cases done
      exact ih
  | memoPoint _ done ih =>
      unfold Assembler.memoPoint at done
      split at done <;> cases done
      exact ih

/-- Code can be assembled as long as there are places for it. -/
theorem Built.append {asm : Assembler} (built : Built asm) (code : List (Inst Target))
    (fits : asm.insts.size + code.length ≤ maxHandle + 1) :
    Built { asm with insts := asm.insts ++ code } := by
  induction code generalizing asm with
  | nil => exact built
  | cons inst rest ih =>
      rw [List.length_cons] at fits
      have room : asm.insts.size ≤ maxHandle := by omega
      have emitted : asm.emitTo inst.op inst.next =
          .ok (⟨asm.insts.size⟩, { asm with insts := asm.insts.push inst }) := by
        simp only [Assembler.emitTo, Assembler.nextId, nextHandle, room, if_true]
      have more := ih (built.emitTo emitted) (by rw [Array.size_push]; omega)
      have same : asm.insts.push inst ++ rest = asm.insts ++ inst :: rest := by
        apply Array.toList_inj.mp
        rw [Array.toList_appendList, Array.toList_appendList, Array.toList_push,
          List.append_assoc, List.singleton_append]
      rw [← same]
      exact more

theorem checkedMap_cons {ε α β : Type} {f : Nat → α → Except ε β} {first : α} {rest : List α}
    {start : Nat} {results : List β} (done : checkedMap f start (first :: rest) = .ok results) :
    ∃ result others, f start first = .ok result ∧
      checkedMap f (start + 1) rest = .ok others ∧ results = result :: others := by
  obtain ⟨result, head, done⟩ := bind_ok done
  obtain ⟨others, tail, done⟩ := bind_ok done
  cases done
  exact ⟨result, others, head, tail, rfl⟩

theorem getElem?_checkedMap {ε α β : Type} {f : Nat → α → Except ε β} {entries : List α}
    {start : Nat} {results : List β} (done : checkedMap f start entries = .ok results)
    {index : Nat} {entry : α} (found : entries[index]? = some entry) :
    ∃ result, f (start + index) entry = .ok result ∧ results[index]? = some result := by
  induction entries generalizing start results index with
  | nil => cases found
  | cons first rest ih =>
      obtain ⟨result, others, head, tail, rfl⟩ := checkedMap_cons done
      cases index with
      | zero =>
          rw [List.getElem?_cons_zero, Option.some.injEq] at found
          subst found
          exact ⟨result, head, rfl⟩
      | succ index =>
          rw [List.getElem?_cons_succ] at found
          obtain ⟨other, made, kept⟩ := ih tail found
          exact ⟨other, by rw [Nat.add_right_comm] at made; exact made, kept⟩

theorem length_checkedMap {ε α β : Type} {f : Nat → α → Except ε β} {entries : List α}
    {start : Nat} {results : List β} (done : checkedMap f start entries = .ok results) :
    results.length = entries.length := by
  induction entries generalizing start results with
  | nil => cases done; rfl
  | cons first rest ih =>
      obtain ⟨result, others, _, tail, rfl⟩ := checkedMap_cons done
      rw [List.length_cons, List.length_cons, ih tail]

/-- Every result was made from the entry at its place. -/
theorem checkedMap_made {ε α β : Type} {f : Nat → α → Except ε β} {entries : List α}
    {start : Nat} {results : List β} (done : checkedMap f start entries = .ok results)
    {index : Nat} {result : β} (made : results[index]? = some result) :
    ∃ entry, entries[index]? = some entry ∧ f (start + index) entry = .ok result := by
  have within : index < entries.length := by
    rw [← length_checkedMap done]
    exact (List.getElem?_eq_some_iff.mp made).1
  have found := List.getElem?_eq_getElem within
  obtain ⟨result', done', made'⟩ := getElem?_checkedMap done found
  rw [made] at made'
  cases made'
  exact ⟨entries[index], found, done'⟩

/-- What finishing consists of. -/
theorem finish_ok {asm : Assembler} {start : Target} {program : Program}
    (done : asm.finish start = .ok program) :
    ∃ insts tables place, checkedMap asm.finishInst 0 asm.insts.toList = .ok insts ∧
      checkedMap asm.finishTable 0 asm.dispatch.toList = .ok tables ∧
      asm.finishStart start = .ok place ∧
      program = ⟨⟨insts.toArray, asm.sets, asm.literals, tables.toArray, asm.memoPoints,
        asm.symbols⟩, place⟩ := by
  unfold Assembler.finish at done
  cases rebound : asm.rebound with
  | some label => rw [rebound] at done; cases done
  | none =>
      rw [rebound] at done
      obtain ⟨insts, finished, done⟩ := bind_ok done
      obtain ⟨tables, dispatch, done⟩ := bind_ok done
      obtain ⟨place, entry, done⟩ := bind_ok done
      cases done
      exact ⟨insts, tables, place, finished, dispatch, entry, rfl⟩

theorem inst?_of_finish {asm : Assembler} {start : Target} {program : Program}
    (done : asm.finish start = .ok program) {index : Nat} {inst : Inst Target}
    (found : asm.insts[index]? = some inst) :
    ∃ finished, asm.finishInst index inst = .ok finished ∧
      program.inst? ⟨index⟩ = some finished := by
  obtain ⟨insts, tables, place, finished, _, _, same⟩ := finish_ok done
  subst same
  rw [← Array.getElem?_toList] at found
  obtain ⟨result, made, kept⟩ := getElem?_checkedMap finished found
  rw [Nat.zero_add] at made
  exact ⟨result, made, by simpa only [Code.inst?, List.getElem?_toArray] using kept⟩

end Assembler

/-- Every finished program begins with the instruction that ends a run without a match and the one
that ends it with a match. -/
theorem Program.Finished.exits {program : Program} (finished : program.Finished) :
    (∃ next, program.inst? .exitFail = some (exitInst false next)) ∧
      ∃ next, program.inst? .exitOk = some (exitInst true next) := by
  obtain ⟨asm, start, built, done⟩ := finished
  have ⟨fails, succeeds⟩ := built.exits
  obtain ⟨first, made, found⟩ := Assembler.inst?_of_finish done fails
  obtain ⟨second, made', found'⟩ := Assembler.inst?_of_finish done succeeds
  cases made
  cases made'
  exact ⟨⟨.exitFail, found⟩, .exitOk, found'⟩

end Packrat
