/-
Interning. Names, byte sets and literals are put into pools, one after another and in any order
among the other calls of an assembler. The map and the entries of each pool stay inverse to each other.
The handle of an entry is the number of different entries that were used before it was used first,
so equal entries share a handle and different ones do not. A handle stands for its entry from then
on, in the assembler and in the finished program.
-/

import Packrat.Proofs.Code.Calls

namespace Packrat

/-- Handles as they were given to entries one after another: every entry has got the number of its
first use as its handle, which stands for it, and all handles below `size` were given so. -/
structure Interning {α : Type} [BEq α] (used : List α) (put? : Nat → Option α)
    (given? : Nat → Option Nat) (meaning? : Nat → Option α) (size : Nat) : Prop where
  given : ∀ i entry, put? i = some entry →
    given? i = some (firstUse used entry) ∧ meaning? (firstUse used entry) = some entry
  same : ∀ i j entry other, put? i = some entry → put? j = some other →
    (given? i = given? j ↔ entry = other)
  dense : ∀ handle, handle < size ↔
    ∃ entry ∈ used, handle = firstUse used entry ∧ meaning? handle = some entry

theorem Interning.of_ofUsed {α : Type} [BEq α] [LawfulBEq α] [Hashable α] {used : List α} {put? : Nat → Option α}
    {given? : Nat → Option Nat} {meaning? : Nat → Option α}
    (among : ∀ i entry, put? i = some entry → entry ∈ used)
    (given : ∀ i entry, put? i = some entry → given? i = some (firstUse used entry))
    (meaning : ∀ handle entry, (Pool.ofUsed used).get? handle = some entry →
      meaning? handle = some entry) :
    Interning used put? given? meaning? (Pool.ofUsed used).size := by
  constructor
  · intro i entry found
    exact ⟨given i entry found, meaning _ entry (Pool.get?_firstUse (among i entry found))⟩
  · intro i j entry other found found'
    rw [given i entry found, given j other found']
    constructor
    · intro same
      have held := Pool.get?_firstUse (among i entry found)
      rw [Option.some.inj same, Pool.get?_firstUse (among j other found')] at held
      exact (Option.some.inj held).symm
    · rintro rfl
      rfl
  · intro handle
    constructor
    · intro inside
      obtain ⟨entry, member, rfl⟩ := Pool.exists_firstUse inside
      exact ⟨entry, member, rfl, meaning _ entry (Pool.get?_firstUse member)⟩
    · rintro ⟨entry, member, rfl, _⟩
      exact (Array.getElem?_eq_some_iff.mp (Pool.get?_firstUse member)).1

/-! ### The pools of an assembler -/

namespace Assembler

variable (asm : Assembler)

theorem intern_eq (name : String) :
    ((asm.intern name).toOption.map fun made => (made.1.index, made.2)) =
      (asm.symbols.names.intern "symbol pool" maxSymbol name).toOption.map fun made =>
        (made.1, { asm with symbols := ⟨made.2⟩ }) := by
  unfold Assembler.intern SymbolPool.intern
  cases asm.symbols.names.intern "symbol pool" maxSymbol name <;> rfl

theorem byteSet_eq (set : ByteSet) :
    ((asm.byteSet set).toOption.map fun made => (made.1.index, made.2)) =
      (asm.setPool.intern "byte sets" maxHandle set).toOption.map fun made =>
        (made.1, { asm with sets := made.2.entries, setIds := made.2.handles }) := by
  unfold Assembler.byteSet
  cases asm.setPool.intern "byte sets" maxHandle set <;> rfl

theorem literal_eq (bytes : Bytes) :
    ((asm.literal bytes).toOption.map fun made => (made.1.index, made.2)) =
      (asm.literalPool.intern "literals" maxHandle bytes).toOption.map fun made =>
        (made.1, { asm with literals := made.2.entries, literalIds := made.2.handles }) := by
  unfold Assembler.literal
  cases asm.literalPool.intern "literals" maxHandle bytes <;> rfl

end Assembler

inductive PoolKind where
  | names
  | sets
  | literals

namespace PoolKind

def Entry : PoolKind → Type
  | names => String
  | sets => ByteSet
  | literals => Bytes

instance : (kind : PoolKind) → BEq kind.Entry
  | names => inferInstanceAs (BEq String)
  | sets => inferInstanceAs (BEq ByteSet)
  | literals => inferInstanceAs (BEq Bytes)

instance : (kind : PoolKind) → LawfulBEq kind.Entry
  | names => inferInstanceAs (LawfulBEq String)
  | sets => inferInstanceAs (LawfulBEq ByteSet)
  | literals => inferInstanceAs (LawfulBEq Bytes)

instance : (kind : PoolKind) → Hashable kind.Entry
  | names => inferInstanceAs (Hashable String)
  | sets => inferInstanceAs (Hashable ByteSet)
  | literals => inferInstanceAs (Hashable Bytes)

variable (kind : PoolKind)

def title : PoolKind → String
  | names => "symbol pool"
  | sets => "byte sets"
  | literals => "literals"

def max : PoolKind → Nat
  | names => maxSymbol
  | sets | literals => maxHandle

/-- The entries that are there without a call. -/
def first : (kind : PoolKind) → List kind.Entry
  | names => [""]
  | sets | literals => []

def pool (asm : Assembler) : (kind : PoolKind) → Pool kind.Entry
  | names => asm.symbols.names
  | sets => asm.setPool
  | literals => asm.literalPool

def replace (asm : Assembler) : (kind : PoolKind) → Pool kind.Entry → Assembler
  | names, pool => { asm with symbols := ⟨pool⟩ }
  | sets, pool => { asm with sets := pool.entries, setIds := pool.handles }
  | literals, pool => { asm with literals := pool.entries, literalIds := pool.handles }

def put? : (kind : PoolKind) → Call → Option kind.Entry
  | names => Call.name?
  | sets => Call.set?
  | literals => Call.bytes?

def intern? (asm : Assembler) : (kind : PoolKind) → kind.Entry → Option (Nat × Assembler)
  | names, name => (asm.intern name).toOption.map fun made => (made.1.index, made.2)
  | sets, set => (asm.byteSet set).toOption.map fun made => (made.1.index, made.2)
  | literals, bytes => (asm.literal bytes).toOption.map fun made => (made.1.index, made.2)

def meaning? {t : Type} (code : Code t) : (kind : PoolKind) → Nat → Option kind.Entry
  | names, handle => some (code.symbols.name ⟨handle⟩)
  | sets, handle => code.byteSet? ⟨handle⟩
  | literals, handle => code.literal? ⟨handle⟩

def used (calls : List Call) : List kind.Entry := kind.first ++ calls.filterMap kind.put?

def entryAt? (calls : List Call) (i : Nat) : Option kind.Entry := calls[i]?.bind kind.put?

def given? (calls : List Call) (i : Nat) : Option Nat := do
  let entry ← kind.entryAt? calls i
  let asm ← Call.assemble? (calls.take i)
  (kind.intern? asm entry).map Prod.fst

def enter? (asm : Assembler) (entry : kind.Entry) : Option (Nat × Pool kind.Entry) :=
  ((kind.pool asm).intern kind.title kind.max entry).toOption

theorem intern?_eq (asm : Assembler) (entry : kind.Entry) :
    kind.intern? asm entry =
      (kind.enter? asm entry).map fun made => (made.1, kind.replace asm made.2) := by
  cases kind with
  | names => exact asm.intern_eq entry
  | sets => exact asm.byteSet_eq entry
  | literals => exact asm.literal_eq entry

theorem run?_of_entry {asm : Assembler} {call : Call} {entry : kind.Entry}
    (puts : kind.put? call = some entry) :
    call.run? asm = (kind.enter? asm entry).map fun made => kind.replace asm made.2 := by
  have run : call.run? asm = (kind.intern? asm entry).map Prod.snd := by
    cases kind <;> cases call <;> cases puts <;> simp only [intern?, Option.map_map] <;> rfl
  rw [run, intern?_eq, Option.map_map]
  rfl

theorem pool_replace (asm : Assembler) (pool : Pool kind.Entry) :
    kind.pool (kind.replace asm pool) = pool := by
  cases kind <;> rfl

/-- A call that puts nothing into a pool leaves it as it is. -/
theorem pool_of_silent {asm asm' : Assembler} {call : Call} (done : call.run? asm = some asm')
    (silent : kind.put? call = none) : kind.pool asm' = kind.pool asm := by
  have replaced (other : PoolKind) {entry : other.Entry} (puts : other.put? call = some entry) :
      ∃ pool, other.replace asm pool = asm' := by
    rw [other.run?_of_entry puts] at done
    obtain ⟨made, _, same⟩ := Option.map_eq_some_iff.mp done
    exact ⟨made.2, same⟩
  cases call with
  | intern name =>
      obtain ⟨pool, rfl⟩ := replaced .names rfl
      cases kind with
      | names => cases silent
      | sets | literals => rfl
  | byteSet set =>
      obtain ⟨pool, rfl⟩ := replaced .sets rfl
      cases kind with
      | sets => cases silent
      | names | literals => rfl
  | literal bytes =>
      obtain ⟨pool, rfl⟩ := replaced .literals rfl
      cases kind with
      | literals => cases silent
      | names | sets => rfl
  | label | bind | emit | emitTo | dispatchTable | memoPoint =>
      have kept : asm'.symbols = asm.symbols ∧ asm'.setPool = asm.setPool ∧
          asm'.literalPool = asm.literalPool := by
        simp only [Call.run?, Assembler.label, Assembler.bind?, Assembler.emit, Assembler.emitTo,
          Assembler.dispatchTable, Assembler.memoPoint] at done
        grind [Except.toOption, Assembler.setPool, Assembler.literalPool]
      cases kind with
      | names => exact congrArg SymbolPool.names kept.1
      | sets => exact kept.2.1
      | literals => exact kept.2.2

theorem pool_initial : kind.pool .initial = .ofUsed kind.first := by
  cases kind <;> rfl

/-- No call brings a pool out of step. -/
theorem inStep_run {asm asm' : Assembler} {call : Call} (inStep : (kind.pool asm).InStep)
    (done : call.run? asm = some asm') : (kind.pool asm').InStep := by
  cases puts : kind.put? call with
  | none =>
      rw [kind.pool_of_silent done puts]
      exact inStep
  | some entry =>
      rw [kind.run?_of_entry puts, enter?] at done
      obtain ⟨made, entered, rfl⟩ := Option.map_eq_some_iff.mp done
      rw [pool_replace]
      cases interned : (kind.pool asm).intern kind.title kind.max entry with
      | error e =>
          rw [interned] at entered
          cases entered
      | ok result =>
          rw [interned] at entered
          cases entered
          exact (inStep.intern interned).1

theorem inStep_of_calls {calls : List Call} {asm : Assembler}
    (assembled : Call.assemble? calls = some asm) : (kind.pool asm).InStep := by
  induction calls using List.reverseRecOn generalizing asm with
  | nil =>
      cases assembled
      rw [pool_initial]
      exact Pool.inStep_ofUsed kind.first
  | append_singleton calls call ih =>
      rw [Call.assemble?_snoc] at assembled
      obtain ⟨before, earlier, done⟩ := Option.bind_eq_some_iff.mp assembled
      exact kind.inStep_run (ih earlier) done

theorem used_snoc (calls : List Call) (call : Call) :
    kind.used (calls ++ [call]) = kind.used calls ++ (kind.put? call).toList := by
  rw [used, used, Call.filterMap_snoc, List.append_assoc]

theorem enter?_ofUsed {asm : Assembler} {calls : List Call}
    (pool : kind.pool asm = .ofUsed (kind.used calls)) (entry : kind.Entry) :
    kind.enter? asm entry =
      if entry ∈ kind.used calls ∨ (kind.pool asm).size ≤ kind.max then
        some (firstUse (kind.used calls ++ [entry]) entry, .ofUsed (kind.used calls ++ [entry]))
      else none := by
  rw [enter?, pool, Pool.intern_ofUsed]
  split <;> rfl

/-- The pools hold what the calls put into them, in the order of first use. -/
theorem pool_of_calls {calls : List Call} {asm : Assembler}
    (assembled : Call.assemble? calls = some asm) :
    kind.pool asm = .ofUsed (kind.used calls) := by
  induction calls using List.reverseRecOn generalizing asm with
  | nil =>
      cases assembled
      rw [pool_initial, used, List.filterMap_nil, List.append_nil]
  | append_singleton calls call ih =>
      rw [Call.assemble?_snoc] at assembled
      obtain ⟨before, earlier, done⟩ := Option.bind_eq_some_iff.mp assembled
      rw [used_snoc]
      cases puts : kind.put? call with
      | none =>
          rw [kind.pool_of_silent done puts, ih earlier, Option.toList_none, List.append_nil]
      | some entry =>
          rw [kind.run?_of_entry puts, kind.enter?_ofUsed (ih earlier)] at done
          obtain ⟨made, entered, rfl⟩ := Option.map_eq_some_iff.mp done
          split at entered
          · cases entered
            rw [pool_replace, Option.toList_some]
          · cases entered

theorem meaning?_of_get? {asm : Assembler} {handle : Nat} {entry : kind.Entry}
    (held : (kind.pool asm).get? handle = some entry) :
    kind.meaning? asm.toCode handle = some entry := by
  cases kind with
  | names => exact congrArg (fun name : Option String => some (name.getD "")) held
  | sets | literals => exact held

end PoolKind

theorem Call.assemble?_take {calls : List Call} {asm : Assembler}
    (assembled : assemble? calls = some asm) (count : Nat) :
    ∃ before, assemble? (calls.take count) = some before := by
  rw [← List.take_append_drop count calls, assemble?, List.foldlM_append] at assembled
  obtain ⟨before, earlier, _⟩ := Option.bind_eq_some_iff.mp assembled
  exact ⟨before, earlier⟩

namespace PoolKind

variable (kind : PoolKind) {calls : List Call} {asm : Assembler}

theorem mem_used {i : Nat} {entry : kind.Entry} (found : kind.entryAt? calls i = some entry) :
    entry ∈ kind.used calls := by
  obtain ⟨call, called, puts⟩ := Option.bind_eq_some_iff.mp found
  exact List.mem_append_right _
    (List.mem_filterMap.mpr ⟨call, List.mem_of_getElem? called, puts⟩)

/-- Every call was given the number of the first use of its entry. -/
theorem given?_eq (assembled : Call.assemble? calls = some asm) {i : Nat} {entry : kind.Entry}
    (found : kind.entryAt? calls i = some entry) :
    kind.given? calls i = some (firstUse (kind.used calls) entry) := by
  obtain ⟨call, called, puts⟩ := Option.bind_eq_some_iff.mp found
  obtain ⟨before, earlier⟩ := Call.assemble?_take assembled i
  obtain ⟨after, later⟩ := Call.assemble?_take assembled (i + 1)
  have snoc : calls.take (i + 1) = calls.take i ++ [call] := by
    rw [List.take_add_one, called, Option.toList_some]
  have done : (kind.enter? before entry).map (fun made => kind.replace before made.2) =
      some after := by
    rw [snoc, Call.assemble?_snoc, earlier, Option.bind_some, kind.run?_of_entry puts] at later
    exact later
  obtain ⟨made, entered, _⟩ := Option.map_eq_some_iff.mp done
  have uses : kind.used calls =
      (kind.used (calls.take i) ++ [entry]) ++ (calls.drop (i + 1)).filterMap kind.put? := by
    have split := congrArg kind.used (List.take_append_drop (i + 1) calls)
    rw [← split, used, List.filterMap_append, ← List.append_assoc, ← used, snoc, used_snoc, puts,
      Option.toList_some]
  have number : made.1 = firstUse (kind.used calls) entry := by
    rw [kind.enter?_ofUsed (kind.pool_of_calls earlier)] at entered
    split at entered
    · cases entered
      rw [uses, firstUse_append (List.mem_append_right _ (List.mem_singleton_self entry))]
    · cases entered
  rw [given?, found, earlier, ← number]
  change (kind.intern? before entry).map Prod.fst = _
  rw [intern?_eq, entered, Option.map_some, Option.map_some]

theorem interning_of_calls (assembled : Call.assemble? calls = some asm) :
    Interning (kind.used calls) (kind.entryAt? calls) (kind.given? calls)
      (kind.meaning? asm.toCode) (kind.pool asm).size := by
  have pool := kind.pool_of_calls assembled
  rw [pool]
  exact .of_ofUsed (fun _ _ found => kind.mem_used found)
    (fun _ _ found => kind.given?_eq assembled found)
    (fun _ _ held => kind.meaning?_of_get? (pool ▸ held))

/-- A call finds room for its entry if the entry is known, or if not all handles are in use. -/
theorem assemble?_snoc_isSome (assembled : Call.assemble? calls = some asm) {call : Call}
    {entry : kind.Entry} (puts : kind.put? call = some entry) :
    (Call.assemble? (calls ++ [call])).isSome ↔
      entry ∈ kind.used calls ∨ (kind.pool asm).size ≤ kind.max := by
  rw [Call.assemble?_snoc, assembled, Option.bind_some, kind.run?_of_entry puts, Option.isSome_map,
    kind.enter?_ofUsed (kind.pool_of_calls assembled)]
  split
  · next fits => exact iff_of_true rfl fits
  · next full => exact iff_of_false Bool.false_ne_true full

end PoolKind

/-! ### Pools of names -/

namespace SymbolPool

def after? (names : List String) : Option SymbolPool :=
  names.foldlM (fun pool name => (pool.intern name).toOption.map Prod.snd) .initial

def given? (names : List String) (i : Nat) : Option Nat := do
  let name ← names[i]?
  let pool ← after? (names.take i)
  (pool.intern name).toOption.map fun given => given.1.index

structure Resolves (pool : SymbolPool) (used : List String) : Prop where
  found : ∀ name sym, pool.get? name = some sym ↔ name ∈ used ∧ sym.index = firstUse used name
  beyond : ∀ sym, pool.size ≤ sym.index → pool.name sym = ""

theorem resolves_of_ofUsed {pool : SymbolPool} {used : List String}
    (held : pool.names = .ofUsed used) : pool.Resolves used := by
  constructor
  · intro name sym
    obtain ⟨index⟩ := sym
    rw [get?, held, Pool.find?_ofUsed]
    by_cases known : name ∈ used
    · simp only [known, if_true, true_and, Option.map_some, Option.some.injEq, Symbol.mk.injEq]
      exact eq_comm
    · simp [known]
  · intro sym outside
    rw [name, Pool.get?, Array.getElem?_eq_none outside]
    rfl

theorem after?_snoc (names : List String) (name : String) :
    after? (names ++ [name]) =
      (after? names).bind fun pool => (pool.intern name).toOption.map Prod.snd := by
  simp [after?, List.foldlM_append]

def assembler (pool : SymbolPool) : Assembler := { Assembler.initial with symbols := pool }

/-- A pool of its own does what the one of an assembler does. -/
theorem assemble?_names (names : List String) :
    Call.assemble? (names.map .intern) = (after? names).map assembler := by
  induction names using List.reverseRecOn with
  | nil => rfl
  | append_singleton names name ih =>
      rw [List.map_append, List.map_singleton, Call.assemble?_snoc, ih, after?_snoc]
      cases after? names with
      | none => rfl
      | some pool =>
          simp only [Option.map_some, Option.bind_some, Call.run?, Assembler.intern, assembler]
          cases pool.intern name <;> rfl

theorem given?_names (names : List String) (i : Nat) :
    PoolKind.names.given? (names.map .intern) i = given? names i := by
  unfold PoolKind.given? PoolKind.entryAt? given?
  rw [List.getElem?_map, ← List.map_take, assemble?_names]
  cases names[i]? with
  | none => rfl
  | some name =>
      cases after? (names.take i) with
      | none => rfl
      | some pool =>
          change Option.map _ (Option.map _ (Assembler.intern _ name).toOption) =
            (pool.intern name).toOption.map _
          unfold Assembler.intern assembler
          cases pool.intern name <;> rfl

theorem used_names (names : List String) :
    PoolKind.names.used (names.map .intern) = "" :: names := by
  rw [PoolKind.used, List.filterMap_map]
  exact congrArg ("" :: ·) List.filterMap_some

end SymbolPool

/-- Interning maps entries to handles and back, for all calls of an assembler and for names alone.
The map of each pool and its entries are inverse to each other. Equal entries are given one handle
and different ones are not; the handles are those from zero on in the order of first use, where the
empty name is used before all others; what a handle stands for is still its entry after all calls
and in the finished program; a name is found if it was used; and a handle that was not given has the
empty name. An entry finds no room only if it is new and all handles are in use. -/
theorem interning_bijective :
    (∀ (calls : List Call) (asm : Assembler), Call.assemble? calls = some asm →
      (∀ kind : PoolKind, (kind.pool asm).InStep ∧
        Interning (kind.used calls) (kind.entryAt? calls) (kind.given? calls)
            (kind.meaning? asm.toCode) (kind.pool asm).size ∧
          ∀ call entry, kind.put? call = some entry →
            ((Call.assemble? (calls ++ [call])).isSome ↔
              entry ∈ kind.used calls ∨ (kind.pool asm).size ≤ kind.max)) ∧
        asm.symbols.Resolves ("" :: calls.filterMap Call.name?) ∧
        ∀ start program, asm.finish start = .ok program →
          program.symbols = asm.symbols ∧
            ∀ kind : PoolKind, kind.meaning? program.toCode = kind.meaning? asm.toCode) ∧
      ∀ (names : List String) (pool : SymbolPool), SymbolPool.after? names = some pool →
        pool.names.InStep ∧ Interning ("" :: names) (names[·]?) (SymbolPool.given? names)
            (fun handle => some (pool.name ⟨handle⟩)) pool.size ∧
          pool.Resolves ("" :: names) ∧
          ∀ name, (SymbolPool.after? (names ++ [name])).isSome ↔
            name ∈ "" :: names ∨ pool.size ≤ maxSymbol := by
  constructor
  · intro calls asm assembled
    refine ⟨fun kind => ⟨kind.inStep_of_calls assembled, kind.interning_of_calls assembled, ?_⟩,
      ?_, ?_⟩
    · intro call entry puts
      exact kind.assemble?_snoc_isSome assembled puts
    · exact SymbolPool.resolves_of_ofUsed (PoolKind.names.pool_of_calls assembled)
    · intro start program done
      obtain ⟨insts, tables, place, _, _, _, rfl⟩ := Assembler.finish_ok done
      exact ⟨rfl, fun kind => by cases kind <;> rfl⟩
  · intro names pool interned
    have assembled : Call.assemble? (names.map .intern) = some pool.assembler := by
      rw [SymbolPool.assemble?_names, interned, Option.map_some]
    refine ⟨PoolKind.names.inStep_of_calls assembled, ?_, ?_, ?_⟩
    · have interning := PoolKind.names.interning_of_calls assembled
      rw [SymbolPool.used_names, funext (SymbolPool.given?_names names)] at interning
      have entries : PoolKind.names.entryAt? (names.map .intern) = (names[·]?) := by
        funext i
        rw [PoolKind.entryAt?, List.getElem?_map]
        cases names[i]? <;> rfl
      rw [entries] at interning
      exact interning
    · have held := PoolKind.names.pool_of_calls assembled
      rw [SymbolPool.used_names] at held
      exact SymbolPool.resolves_of_ofUsed held
    · intro name
      have puts : PoolKind.names.put? (.intern name) = some name := rfl
      have room := PoolKind.names.assemble?_snoc_isSome assembled puts
      rw [← List.map_singleton, ← List.map_append, SymbolPool.assemble?_names, Option.isSome_map,
        SymbolPool.used_names] at room
      exact room

/-- Four calls on an assembler: the third one puts in a name that is there and is given the handle
of the first one, behind the empty name. The literal is numbered on its own. -/
theorem interning_bijective_shared :
    let calls : List Call := [.intern "a", .literal #[0x61], .intern "a", .intern "b"]
    ∃ asm, Call.assemble? calls = some asm ∧ PoolKind.names.given? calls 0 = some 1 ∧
      PoolKind.names.given? calls 2 = PoolKind.names.given? calls 0 ∧
      PoolKind.literals.given? calls 1 = some 0 ∧ asm.symbols.name ⟨2⟩ = "b" ∧
      asm.symbols.get? "b" = some ⟨2⟩ := by
  intro calls
  have fits : Call.Fits calls :=
    ⟨by decide, by decide, by decide, by decide, by decide, by decide, by decide,
      fun index label found => by rcases index with _ | _ | _ | _ | index <;> cases found⟩
  obtain ⟨asm, assembled, _⟩ := Call.assemble?_follows fits
  obtain ⟨kinds, resolves, _⟩ := interning_bijective.1 calls asm assembled
  have names := (kinds .names).2.1
  have literals := (kinds .literals).2.1
  refine ⟨asm, assembled, (names.given 0 "a" rfl).1, (names.same 2 0 "a" "a" rfl rfl).mpr rfl,
    (literals.given 1 #[0x61] rfl).1, ?_, (resolves.found "b" ⟨2⟩).mpr ⟨by decide, by decide⟩⟩
  exact Option.some.inj (names.given 3 "b" rfl).2

end Packrat
