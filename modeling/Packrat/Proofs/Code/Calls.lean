/-
Code as the calls that assemble it. The instructions, the entries of the pools and the place of
every label can be read off the list of the calls, and the assembler holds what is read there. As
long as no pool is full and only labels that were handed out are bound, every call is carried out.
-/

import Packrat.Proofs.Code.Finished
import Packrat.Proofs.Code.Pools
import Packrat.Proofs.Code.Targets

namespace Packrat

/-! ### Calls -/

inductive Call where
  | label
  | bind (label : Label)
  | emit (op : Op Target)
  | emitTo (op : Op Target) (next : Target)
  | intern (name : String)
  | byteSet (set : ByteSet)
  | literal (bytes : Bytes)
  | dispatchTable (table : DispatchTable Target)
  | memoPoint (point : MemoPoint)

namespace Call

/-- The assembler after a call; none if a pool is full or the label is one of another assembler. -/
def run? (asm : Assembler) : Call → Option Assembler
  | .label => asm.label.toOption.map Prod.snd
  | .bind other => asm.bind? other
  | .emit op => (asm.emit op).toOption.map Prod.snd
  | .emitTo op next => (asm.emitTo op next).toOption.map Prod.snd
  | .intern name => (asm.intern name).toOption.map Prod.snd
  | .byteSet set => (asm.byteSet set).toOption.map Prod.snd
  | .literal bytes => (asm.literal bytes).toOption.map Prod.snd
  | .dispatchTable table => (asm.dispatchTable table).toOption.map Prod.snd
  | .memoPoint point => (asm.memoPoint point).toOption.map Prod.snd

def isLabel : Call → Bool
  | .label => true
  | _ => false

def binds (label : Label) : Call → Bool
  | .bind other => other = label
  | _ => false

def insts (place : Nat) : Call → List (Inst Target)
  | .emit op => [⟨op, .inst ⟨place + 1⟩⟩]
  | .emitTo op next => [⟨op, next⟩]
  | _ => []

def name? : Call → Option String
  | .intern name => some name
  | _ => none

def set? : Call → Option ByteSet
  | .byteSet set => some set
  | _ => none

def bytes? : Call → Option Bytes
  | .literal bytes => some bytes
  | _ => none

def table? : Call → Option (DispatchTable Target)
  | .dispatchTable table => some table
  | _ => none

def point? : Call → Option MemoPoint
  | .memoPoint point => some point
  | _ => none

/-- The instructions that calls emit, behind the two that end a run. -/
def emitted (calls : List Call) : List (Inst Target) :=
  calls.foldl (fun insts call => insts ++ call.insts insts.length)
    [exitInst false (.inst .exitFail), exitInst true (.inst .exitOk)]

/-- The code that calls assemble. Sets, literals and names are kept once each, in the order of their
first use. -/
def code (calls : List Call) : Code Target where
  insts := (emitted calls).toArray
  sets := (calls.filterMap set?).eraseDups.toArray
  literals := (calls.filterMap bytes?).eraseDups.toArray
  dispatch := (calls.filterMap table?).toArray
  memoPoints := (calls.filterMap point?).toArray
  symbols := ⟨.ofUsed ("" :: calls.filterMap name?)⟩

/-- The place that a label is bound to: as many instructions were emitted before. -/
def placeOf (calls : List Call) (label : Label) : InstId :=
  ⟨(emitted (calls.takeWhile fun call => !call.binds label)).length⟩

/-- Calls that find room in every pool, and bind no label that was not handed out before. -/
structure Fits (calls : List Call) : Prop where
  labels : calls.countP isLabel ≤ maxHandle
  insts : (code calls).insts.size ≤ maxHandle
  sets : (code calls).sets.size ≤ maxHandle
  literals : (code calls).literals.size ≤ maxHandle
  dispatch : (code calls).dispatch.size ≤ maxHandle
  memoPoints : (code calls).memoPoints.size ≤ maxHandle
  symbols : (code calls).symbols.size ≤ maxHandle
  known : ∀ index label, calls[index]? = some (.bind label) →
    label.index < (calls.take index).countP isLabel

/-! ### One call more -/

theorem emitted_snoc (calls : List Call) (call : Call) :
    emitted (calls ++ [call]) = emitted calls ++ call.insts (emitted calls).length := by
  unfold emitted
  rw [List.foldl_append]
  rfl

theorem Fits.before {calls : List Call} {call : Call} (fits : Fits (calls ++ [call])) :
    Fits calls := by
  obtain ⟨labels, insts, sets, literals, dispatch, memoPoints, symbols, known⟩ := fits
  simp only [code, SymbolPool.size, Pool.size_ofUsed, List.size_toArray, List.filterMap_append,
    emitted_snoc, List.length_append] at insts sets literals dispatch memoPoints symbols
  rw [List.countP_append] at labels
  constructor
  · exact Nat.le_trans (Nat.le_add_right _ _) labels
  · exact Nat.le_trans (Nat.le_add_right _ _) insts
  · exact Nat.le_trans (length_eraseDups_append _ _) sets
  · exact Nat.le_trans (length_eraseDups_append _ _) literals
  · exact Nat.le_trans (Nat.le_add_right _ _) dispatch
  · exact Nat.le_trans (Nat.le_add_right _ _) memoPoints
  · rw [← List.cons_append] at symbols
    rw [code, SymbolPool.size, Pool.size_ofUsed]
    exact Nat.le_trans (length_eraseDups_append _ _) symbols
  · intro index label found
    have inside := (List.getElem?_eq_some_iff.mp found).1
    rw [← List.take_append_of_le_length (Nat.le_of_lt inside)]
    exact known index label (by rw [List.getElem?_append_left inside, found])

/-- Calls behind the one that binds a label do not move it. -/
theorem placeOf_append {calls : List Call} {label : Label}
    (bound : calls.any (binds label) = true) (more : List Call) :
    placeOf (calls ++ more) label = placeOf calls label := by
  unfold placeOf
  rw [List.takeWhile_append, if_neg]
  intro full
  have whole := (List.takeWhile_prefix fun call : Call => !call.binds label).eq_of_length full
  obtain ⟨call, member, here⟩ := List.any_eq_true.mp bound
  have quiet : (calls.takeWhile fun call => !call.binds label).all (fun call => !call.binds label) =
      true := List.all_takeWhile
  rw [whole] at quiet
  have unbound := List.all_eq_true.mp quiet call member
  rw [here] at unbound
  cases unbound

theorem placeOf_bind {calls : List Call} {label : Label}
    (unbound : calls.any (binds label) = false) :
    placeOf (calls ++ [.bind label]) label = ⟨(emitted calls).length⟩ := by
  unfold placeOf
  rw [List.takeWhile_append_of_pos, List.takeWhile_cons_of_neg, List.append_nil]
  · simp [binds]
  · intro call member
    rw [Bool.not_eq_true']
    exact Bool.eq_false_iff.mpr (List.any_eq_false.mp unbound call member)

end Call

/-! ### Labels -/

open Call (binds isLabel emitted placeOf)

/-- The labels of an assembler stand where the calls bind them. -/
structure Labelled (calls : List Call) (labels : Array (Option InstId)) (rebound : Option Label) :
    Prop where
  count : labels.size = calls.countP isLabel
  bound : ∀ label : Label, labels[label.index]?.join.isSome = calls.any (binds label)
  placed : rebound = none → ∀ (label : Label) (place : InstId),
    labels[label.index]? = some (some place) → place = placeOf calls label
  once : rebound = none → ∀ label, calls.countP (binds label) ≤ 1
  twice : ∀ label, rebound = some label → 1 < calls.countP (binds label)

namespace Labelled

variable {calls : List Call} {labels : Array (Option InstId)} {rebound : Option Label}

/-- A call that binds no label changes nothing that is known of the labels. -/
theorem silent (labelled : Labelled calls labels rebound) {call : Call}
    {labels' : Array (Option InstId)} (quiet : ∀ label, call.binds label = false)
    (count : labels'.size = (calls ++ [call]).countP isLabel)
    (same : ∀ index : Nat, labels'[index]?.join = labels[index]?.join) :
    Labelled (calls ++ [call]) labels' rebound := by
  have counted (label : Label) : (calls ++ [call]).countP (binds label) =
      calls.countP (binds label) := by
    rw [List.countP_append, List.countP_singleton, quiet]
    rfl
  constructor
  · exact count
  · intro label
    rw [same, labelled.bound, List.any_append, List.any_cons, List.any_nil, quiet, Bool.or_false,
      Bool.or_false]
  · intro sound label place found
    have before : labels[label.index]?.join = some place := by
      rw [← same, found]
      rfl
    have bound : calls.any (binds label) = true := by
      rw [← labelled.bound, before]
      rfl
    rw [Call.placeOf_append bound]
    exact labelled.placed sound label place (Option.join_eq_some_iff.mp before)
  · intro sound label
    rw [counted]
    exact labelled.once sound label
  · intro label again
    rw [counted]
    exact labelled.twice label again

theorem bind {slot : Option InstId} (labelled : Labelled calls labels rebound) (label : Label)
    (found : labels[label.index]? = some slot) :
    Labelled (calls ++ [.bind label])
      (labels.setIfInBounds label.index (some ⟨(emitted calls).length⟩))
      (if slot.isSome ∧ rebound = none then some label else rebound) := by
  have inside : label.index < labels.size := (Array.getElem?_eq_some_iff.mp found).1
  have bound : calls.any (binds label) = slot.isSome := by
    rw [← labelled.bound, found]
    rfl
  have counted (other : Label) : (calls ++ [Call.bind label]).countP (binds other) =
      calls.countP (binds other) + if label = other then 1 else 0 := by
    simp only [List.countP_append, List.countP_singleton, binds, decide_eq_true_eq]
  have again : slot.isSome = true → 0 < calls.countP (binds label) := by
    intro there
    rw [there] at bound
    exact List.countP_pos_iff.mpr (List.any_eq_true.mp bound)
  -- Only a label that was not bound before leaves the assembler without one that is bound twice.
  have sound : (if slot.isSome ∧ rebound = none then some label else rebound) = none →
      slot = none ∧ rebound = none := by
    intro clean
    cases slot with
    | none => exact ⟨rfl, by simpa using clean⟩
    | some place => cases rebound <;> simp at clean
  have elsewhere {other : Label} (differs : label ≠ other) : label.index ≠ other.index :=
    fun same => differs (congrArg Label.mk same)
  constructor
  · rw [Array.size_setIfInBounds, labelled.count, List.countP_append]
    rfl
  · intro other
    rw [Array.getElem?_setIfInBounds, List.any_append, List.any_cons, List.any_nil, Bool.or_false,
      binds]
    by_cases here : label = other
    · rw [here, if_pos rfl, if_pos (here ▸ inside), decide_eq_true rfl, Bool.or_true]
      rfl
    · rw [if_neg (elsewhere here), decide_eq_false here, Bool.or_false]
      exact labelled.bound other
  · intro clean other place placed
    obtain ⟨rfl, rfl⟩ := sound clean
    rw [Array.getElem?_setIfInBounds] at placed
    by_cases here : label = other
    · rw [here, if_pos rfl, if_pos (here ▸ inside)] at placed
      cases placed
      rw [← here, Call.placeOf_bind bound]
    · rw [if_neg (elsewhere here)] at placed
      have known : calls.any (binds other) = true := by
        rw [← labelled.bound, placed]
        rfl
      rw [Call.placeOf_append known]
      exact labelled.placed rfl other place placed
  · intro clean other
    obtain ⟨rfl, rfl⟩ := sound clean
    rw [counted]
    by_cases here : label = other
    · have never : calls.countP (binds label) = 0 := by
        rw [List.countP_eq_zero]
        exact fun call member => List.any_eq_false.mp bound call member
      rw [if_pos here, ← here]
      exact Nat.le_of_eq (congrArg (· + 1) never)
    · rw [if_neg here]
      exact labelled.once rfl other
  · intro other marked
    rw [counted]
    cases old : rebound with
    | some first =>
        rw [old, if_neg (by simp)] at marked
        exact Nat.lt_of_lt_of_le (labelled.twice other (old.trans marked)) (Nat.le_add_right _ _)
    | none =>
        cases there : slot.isSome with
        | false =>
            rw [old, there, if_neg (by simp)] at marked
            cases marked
        | true =>
            rw [old, there, if_pos ⟨rfl, rfl⟩] at marked
            cases marked
            rw [if_pos rfl]
            exact Nat.succ_lt_succ (again there)

end Labelled

theorem Assembler.bind?_eq {asm : Assembler} {label : Label} {slot : Option InstId}
    (found : asm.labels[label.index]? = some slot) :
    asm.bind? label = some { asm with
      labels := asm.labels.setIfInBounds label.index (some ⟨asm.insts.size⟩)
      rebound := if slot.isSome ∧ asm.rebound = none then some label else asm.rebound } := by
  unfold Assembler.bind?
  rw [found]
  cases slot with
  | none => simp
  | some place => cases first : asm.rebound <;> simp

/-- The assembler holds the code and the labels of the calls, and finds the sets and literals of the
code again. -/
structure Assembler.Follows (calls : List Call) (asm : Assembler) : Prop where
  code : asm.toCode = Call.code calls
  sets : asm.setPool = .ofUsed (calls.filterMap Call.set?)
  literals : asm.literalPool = .ofUsed (calls.filterMap Call.bytes?)
  labels : Labelled calls asm.labels asm.rebound

namespace Call

variable {calls : List Call}

theorem filterMap_snoc {α β : Type} (f : α → Option β) (entries : List α) (entry : α) :
    (entries ++ [entry]).filterMap f = entries.filterMap f ++ (f entry).toList := by
  rw [List.filterMap_append, List.filterMap_cons, List.filterMap_nil]
  cases f entry <;> rfl

/-- What one call more adds to the code. -/
theorem code_snoc (calls : List Call) (call : Call) :
    code (calls ++ [call]) =
      { insts := (emitted calls).toArray ++ call.insts (emitted calls).length
        sets := (calls.filterMap set? ++ call.set?.toList).eraseDups.toArray
        literals := (calls.filterMap bytes? ++ call.bytes?.toList).eraseDups.toArray
        dispatch := (calls.filterMap table?).toArray ++ call.table?.toList
        memoPoints := (calls.filterMap point?).toArray ++ call.point?.toList
        symbols := ⟨.ofUsed (("" :: calls.filterMap name?) ++ call.name?.toList)⟩ } := by
  simp only [code, emitted_snoc, filterMap_snoc, List.cons_append, ← List.toArray_appendList]

def assembled (calls : List Call) (labels : Array (Option InstId)) (rebound : Option Label) :
    Assembler where
  toCode := code calls
  setIds := (Pool.ofUsed (calls.filterMap set?)).handles
  literalIds := (Pool.ofUsed (calls.filterMap bytes?)).handles
  labels := labels
  rebound := rebound

section Assembled

variable (labels : Array (Option InstId)) (rebound : Option Label)

theorem setPool_assembled :
    (assembled calls labels rebound).setPool = .ofUsed (calls.filterMap set?) :=
  Pool.mk_ofUsed _

theorem literalPool_assembled :
    (assembled calls labels rebound).literalPool = .ofUsed (calls.filterMap bytes?) :=
  Pool.mk_ofUsed _

/-- A call that leaves the labels alone adds to the code what the calls have more. -/
theorem run_code {call : Call} (fits : Fits (calls ++ [call])) (plain : call.isLabel = false)
    (quiet : ∀ label, call.binds label = false) :
    call.run? (assembled calls labels rebound) =
      some (assembled (calls ++ [call]) labels rebound) := by
  have room := fits.before
  have more : assembled (calls ++ [call]) labels rebound =
      { toCode := code (calls ++ [call])
        setIds := (Pool.ofUsed (calls.filterMap set? ++ call.set?.toList)).handles
        literalIds := (Pool.ofUsed (calls.filterMap bytes? ++ call.bytes?.toList)).handles
        labels := labels
        rebound := rebound } := by
    rw [assembled, filterMap_snoc, filterMap_snoc]
  rw [more, code_snoc]
  cases call with
  | label => cases plain
  | bind label => simp [binds] at quiet
  | emit op =>
      have free : (assembled calls labels rebound).insts.size < maxHandle := by
        simpa [assembled, code, emitted_snoc, Call.insts, Nat.succ_le_iff] using fits.insts
      rw [run?, Assembler.emit_of_room op free]
      simp [Except.toOption, code, assembled, insts, set?, bytes?, table?, point?, name?]
  | emitTo op next =>
      have free : (emitted calls).length ≤ maxHandle := room.insts
      simp [run?, Assembler.emitTo, Assembler.nextId, nextHandle, Except.toOption, code,
        assembled, free, insts, set?, bytes?, table?, point?, name?]
  | dispatchTable table =>
      have free : (calls.filterMap table?).length ≤ maxHandle := room.dispatch
      simp [run?, Assembler.dispatchTable, nextHandle, Except.toOption, code,
        assembled, free, insts, set?, bytes?, table?, point?, name?]
  | memoPoint point =>
      have free : (calls.filterMap point?).length ≤ maxHandle := room.memoPoints
      simp [run?, Assembler.memoPoint, nextHandle, Except.toOption, code,
        assembled, free, insts, set?, bytes?, table?, point?, name?]
  | byteSet set =>
      obtain ⟨handle, interned⟩ := Pool.intern_room "byte sets" set room.sets
      rw [run?, Assembler.byteSet, setPool_assembled, interned]
      simp [Except.toOption, code, assembled, Pool.entries_ofUsed, insts, set?, bytes?, table?,
        point?, name?]
  | literal bytes =>
      obtain ⟨handle, interned⟩ := Pool.intern_room "literals" bytes room.literals
      rw [run?, Assembler.literal, literalPool_assembled, interned]
      simp [Except.toOption, code, assembled, Pool.entries_ofUsed, insts, set?, bytes?, table?,
        point?, name?]
  | intern name =>
      have free : ("" :: calls.filterMap name?).eraseDups.length ≤ maxSymbol := by
        rw [← Pool.size_ofUsed]
        exact Nat.le_trans room.symbols (by decide)
      obtain ⟨handle, interned⟩ := Pool.intern_room "symbol pool" name free
      simp [run?, Assembler.intern, SymbolPool.intern, Except.toOption, code, assembled, interned,
        insts, set?, bytes?, table?, point?, name?]

theorem follows_assembled {labels : Array (Option InstId)} {rebound : Option Label}
    (labelled : Labelled calls labels rebound) : (assembled calls labels rebound).Follows calls :=
  ⟨rfl, setPool_assembled labels rebound, literalPool_assembled labels rebound, labelled⟩

/-- A call without an entry for the code leaves it and its maps as they are. -/
theorem assembled_silent {call : Call} (plain : call.insts (emitted calls).length = [])
    (names : call.name? = none) (sets : call.set? = none) (literals : call.bytes? = none)
    (tables : call.table? = none) (points : call.point? = none) :
    assembled (calls ++ [call]) labels rebound = assembled calls labels rebound := by
  rw [assembled, assembled, filterMap_snoc, filterMap_snoc, code_snoc, plain, names, sets, literals,
    tables, points]
  simp only [code, Option.toList_none, List.append_nil, Array.appendList_nil]

end Assembled

end Call

theorem Assembler.Follows.eq_assembled {asm : Assembler} {calls : List Call}
    (follows : asm.Follows calls) : asm = Call.assembled calls asm.labels asm.rebound := by
  obtain ⟨held, setIds, literalIds, labels, rebound⟩ := asm
  obtain ⟨rfl, sets, literals, _⟩ := follows
  obtain rfl : setIds = _ := congrArg Pool.handles sets
  obtain rfl : literalIds = _ := congrArg Pool.handles literals
  rfl

namespace Call

variable {calls : List Call}

/-- Every call is carried out, and the assembler goes on holding what the calls say. -/
theorem run_follows {asm : Assembler} (follows : asm.Follows calls) {call : Call}
    (fits : Fits (calls ++ [call])) :
    ∃ asm', call.run? asm = some asm' ∧ asm'.Follows (calls ++ [call]) := by
  have room := fits.before
  rw [follows.eq_assembled]
  have labelled := follows.labels
  generalize asm.labels = labels, asm.rebound = rebound at labelled ⊢
  -- Calls either add to the code or work on the labels.
  have unchanged (plain : call.isLabel = false) (quiet : ∀ label, call.binds label = false) :
      ∃ asm', call.run? (assembled calls labels rebound) = some asm' ∧
        asm'.Follows (calls ++ [call]) := by
    refine ⟨_, run_code labels rebound fits plain quiet,
      follows_assembled (labelled.silent quiet ?_ fun _ => rfl)⟩
    rw [labelled.count, List.countP_append, List.countP_singleton, plain]
    rfl
  cases call with
  | label =>
      have free : labels.size ≤ maxHandle := by
        rw [labelled.count]
        exact room.labels
      refine ⟨assembled (calls ++ [.label]) (labels.push none) rebound, ?_,
        follows_assembled (labelled.silent (fun _ => rfl) ?_ fun index => ?_)⟩
      · rw [assembled_silent _ _ rfl rfl rfl rfl rfl rfl]
        simp only [run?, Assembler.label, assembled, nextHandle, free, if_true]
        rfl
      · rw [Array.size_push, labelled.count, List.countP_append]
        rfl
      · rw [Array.getElem?_push]
        by_cases last : index = labels.size
        · rw [if_pos last, last, Array.getElem?_eq_none (Nat.le_refl labels.size)]
          rfl
        · rw [if_neg last]
  | bind label =>
      have inside : label.index < labels.size := by
        have known := fits.known calls.length label List.getElem?_concat_length
        rw [List.take_left] at known
        rw [labelled.count]
        exact known
      have found := Array.getElem?_eq_getElem inside
      refine ⟨_, ?_, follows_assembled (labelled.bind label found)⟩
      rw [assembled_silent _ _ rfl rfl rfl rfl rfl rfl]
      exact Assembler.bind?_eq found
  | emit | emitTo | intern | byteSet | literal | dispatchTable | memoPoint =>
      exact unchanged rfl fun _ => rfl

def assemble? (calls : List Call) : Option Assembler :=
  calls.foldlM run? .initial

theorem assemble?_snoc (calls : List Call) (call : Call) :
    assemble? (calls ++ [call]) = (assemble? calls).bind call.run? := by
  unfold assemble?
  rw [List.foldlM_append]
  cases calls.foldlM run? .initial with
  | none => rfl
  | some asm =>
      change (call.run? asm).bind some = call.run? asm
      cases call.run? asm <;> rfl

/-- Calls that fit are carried out, and the assembler holds what they say. -/
theorem assemble?_follows (fits : Fits calls) :
    ∃ asm, assemble? calls = some asm ∧ asm.Follows calls := by
  induction calls using List.reverseRecOn with
  | nil =>
      refine ⟨.initial, rfl, rfl, rfl, rfl, rfl, fun label => ?_, fun _ label place found => ?_,
        fun _ label => Nat.zero_le 1, fun label again => ?_⟩
      · rfl
      · cases found
      · cases again
  | append_singleton calls call ih =>
      obtain ⟨asm, before, follows⟩ := ih fits.before
      obtain ⟨asm', after, follows'⟩ := run_follows follows fits
      exact ⟨asm', by rw [assemble?_snoc, before]; exact after, follows'⟩

theorem run?_built {asm asm' : Assembler} (built : asm.Built) {call : Call}
    (done : call.run? asm = some asm') : asm'.Built := by
  have carried {α : Type} {result : Except PoolError (α × Assembler)}
      (done : result.toOption.map Prod.snd = some asm') :
      ∃ handle, result = .ok (handle, asm') := by
    cases result with
    | error e => cases done
    | ok made => cases done; exact ⟨made.1, rfl⟩
  cases call with
  | label => exact .label built (carried done).choose_spec
  | bind label => exact .bind built done
  | emit op => exact .emit built (carried done).choose_spec
  | emitTo op next => exact .emitTo built (carried done).choose_spec
  | intern name => exact .intern built (carried done).choose_spec
  | byteSet set => exact .byteSet built (carried done).choose_spec
  | literal bytes => exact .literal built (carried done).choose_spec
  | dispatchTable table => exact .dispatchTable built (carried done).choose_spec
  | memoPoint point => exact .memoPoint built (carried done).choose_spec

theorem assemble?_built {asm : Assembler} (assembled : assemble? calls = some asm) :
    asm.Built := by
  induction calls using List.reverseRecOn generalizing asm with
  | nil => cases assembled; exact .initial
  | append_singleton calls call ih =>
      rw [assemble?_snoc] at assembled
      obtain ⟨before, earlier, done⟩ := Option.bind_eq_some_iff.mp assembled
      exact run?_built (ih earlier) done

end Call

end Packrat
