/-
The shared stack of bindings beside tables that are kept apart. A client binds and hides values, saves
and later returns to what it saved. The tables do the same each for itself, and to return puts back
all of them as they were. As long as the client returns to nothing that was cut off, both answer every
question alike, and what a mark stands for is known by its state number.
-/

import Mathlib.Data.List.Induction
import Packrat.Proofs.Bindings.Fingerprint

namespace Packrat.Bindings

/-! ### The values that a table shows -/

def shownWith (table : Symbol) (values : List Bytes) (entry : Binding) : List Bytes :=
  if entry.table = table then
    match entry.value with
    | none => []
    | some value => value :: values
  else values

/-- The values bound to a table since it was last hidden, the newest first. The entries are read from
the oldest to the newest. -/
def shown (table : Symbol) (entries : List Binding) : List Bytes :=
  entries.foldl (shownWith table) []

theorem shown_concat (table : Symbol) (entries : List Binding) (entry : Binding) :
    shown table (entries ++ [entry]) = shownWith table (shown table entries) entry := by
  unfold shown
  rw [List.foldl_append]
  rfl

theorem lookupBelow_eq_head? (table : Symbol) (entries : Array Binding) (count : Nat) :
    lookupBelow table entries count = (shown table (entries.toList.take count)).head? := by
  induction count with
  | zero => rfl
  | succ count ih =>
      rw [lookupBelow, List.take_add_one, Array.getElem?_toList]
      cases entries[count]? with
      | none => rw [Option.toList_none, List.append_nil]; exact ih
      | some entry =>
          rw [Option.toList_some, shown_concat]
          dsimp only
          unfold shownWith
          by_cases named : entry.table = table
          · rw [if_pos named, if_pos named]
            cases entry.value <;> rfl
          · rw [if_neg named, if_neg named]
            exact ih

theorem containsBelow_eq_mem (table : Symbol) (bytes : Bytes) (entries : Array Binding)
    (count : Nat) : containsBelow table bytes entries count =
      decide (bytes ∈ shown table (entries.toList.take count)) := by
  induction count with
  | zero => exact (decide_eq_false List.not_mem_nil).symm
  | succ count ih =>
      rw [containsBelow, List.take_add_one, Array.getElem?_toList]
      cases entries[count]? with
      | none => rw [Option.toList_none, List.append_nil]; exact ih
      | some entry =>
          rw [Option.toList_some, shown_concat]
          dsimp only
          unfold shownWith
          by_cases named : entry.table = table
          · rw [if_pos named, if_pos named]
            cases entry.value with
            | none => exact (decide_eq_false List.not_mem_nil).symm
            | some value =>
                dsimp only
                by_cases same : value = bytes
                · rw [if_pos same, same]
                  exact (decide_eq_true List.mem_cons_self).symm
                · rw [if_neg same, ih]
                  have other : ¬ bytes = value := fun equal => same equal.symm
                  simp only [List.mem_cons, other, false_or]
          · rw [if_neg named, if_neg named]
            exact ih

/-! ### Requests -/

/-- What a client asks for. What it saved is referred to by its place in the order of the saves. -/
inductive Request where
  | define (table : Symbol) (value : Bytes)
  | mask (table : Symbol)
  | save
  | restore (taken : Nat)
deriving DecidableEq, Repr

structure Save where
  mark : BindingMark
  state : Nat
deriving DecidableEq, Repr

structure Session where
  bindings : Bindings
  saves : List Save

/-- All tables as they were, and the number of changes that had led to them. -/
structure Snapshot where
  values : Symbol → List Bytes
  height : Nat

/-- Tables that are kept apart, each as the list of the values that it shows, the newest first. The
height is the number of changes that are not undone; a snapshot is lost once one of the changes that
had led to it is undone. -/
structure Tables where
  values : Symbol → List Bytes
  height : Nat
  snapshots : List (Option Snapshot)

namespace Session

def fresh : Session := ⟨.empty, []⟩

def answer? (session : Session) : Request → Option Session
  | .define table value => some { session with bindings := session.bindings.define table value }
  | .mask table => some { session with bindings := session.bindings.mask table }
  | .save =>
    some
      { session with
        saves := session.saves ++ [⟨session.bindings.save, session.bindings.state⟩] }
  | .restore taken =>
    session.saves[taken]?.map fun save =>
      { session with bindings := session.bindings.restore save.mark }

def run (requests : List Request) : Option Session :=
  requests.foldlM answer? fresh

end Session

namespace Tables

def fresh : Tables := ⟨fun _ => [], 0, []⟩

def change (tables : Tables) (table : Symbol) (values : List Bytes) : Tables :=
  { tables with
    values := fun other => if other = table then values else tables.values other
    height := tables.height + 1 }

def snapshot? (tables : Tables) (taken : Nat) : Option Snapshot := tables.snapshots[taken]?.join

/-- Put back all tables. The snapshots that had more changes behind them are lost. -/
def reinstate (tables : Tables) (snapshot : Snapshot) : Tables where
  values := snapshot.values
  height := snapshot.height
  snapshots := tables.snapshots.map
    (Option.filter fun other => decide (other.height ≤ snapshot.height))

def answer? (tables : Tables) : Request → Option Tables
  | .define table value => some (tables.change table (value :: tables.values table))
  | .mask table => some (tables.change table [])
  | .save =>
    some { tables with snapshots := tables.snapshots ++ [some ⟨tables.values, tables.height⟩] }
  | .restore taken => (tables.snapshot? taken).map tables.reinstate

def run (requests : List Request) : Option Tables :=
  requests.foldlM answer? fresh

end Tables

/-! ### Agreement -/

/-- A save stands for a snapshot: the entries up to its mark show what the snapshot holds, and the
state number of the mark is the one that was seen. -/
structure Stands (bindings : Bindings) (save : Save) (snapshot : Snapshot) : Prop where
  height : save.mark.size = snapshot.height
  within : save.mark.size ≤ bindings.size
  values : ∀ table, shown table (bindings.entries.toList.take save.mark.size) =
    snapshot.values table
  state : bindings.stateAt save.mark = save.state

/-- The stack shows what the tables hold, and so does every mark that is not cut off. -/
structure Mirrors (session : Session) (tables : Tables) : Prop where
  values : ∀ table, shown table session.bindings.entries.toList = tables.values table
  height : session.bindings.size = tables.height
  settled : session.bindings.Settled
  taken : session.saves.length = tables.snapshots.length
  saves : ∀ taken snapshot, tables.snapshot? taken = some snapshot →
    ∃ save, session.saves[taken]? = some save ∧ Stands session.bindings save snapshot

theorem Stands.push {bindings : Bindings} {save : Save} {snapshot : Snapshot}
    (stands : Stands bindings save snapshot) (table : Symbol) (value : Option Bytes)
    (unchanged : Bool) : Stands (bindings.push table value unchanged) save snapshot := by
  have within := stands.within
  obtain ⟨entry, entries⟩ := entries_push bindings table value unchanged
  constructor
  · exact stands.height
  · rw [size_push]
    omega
  · intro other
    have short : save.mark.size ≤ bindings.entries.toList.length := by
      rw [Array.length_toList]
      exact within
    rw [entries, List.take_append_of_le_length short]
    exact stands.values other
  · rw [stateAt_push, if_neg (by omega)]
    exact stands.state

/-- A save stays what it was when a mark is restored that does not lie below its own. -/
theorem Stands.restore {bindings : Bindings} {save : Save} {snapshot : Snapshot} {mark : BindingMark}
    (stands : Stands bindings save snapshot) (below : save.mark.size ≤ mark.size)
    (within : mark.size ≤ bindings.size) : Stands (bindings.restore mark) save snapshot := by
  have size : (bindings.restore mark).size = mark.size := by
    unfold Bindings.size at within ⊢
    rw [← Array.length_toList, entries_restore, List.length_take, Array.length_toList]
    omega
  constructor
  · exact stands.height
  · rw [size]
    exact below
  · intro table
    rw [entries_restore, List.take_take, Nat.min_eq_left below]
    exact stands.values table
  · rw [stateAt_restore, if_pos below]
    exact stands.state

namespace Mirrors

variable {session : Session} {tables : Tables}

theorem fresh : Mirrors Session.fresh Tables.fresh := by
  refine ⟨fun _ => rfl, rfl, settled_empty, rfl, ?_⟩
  intro taken snapshot found
  cases found

/-- An entry is pushed, for a change of its table. -/
theorem push (mirrors : Mirrors session tables) (table : Symbol) (value : Option Bytes)
    (unchanged : Bool) {values : List Bytes}
    (changed : ∀ state, shownWith table (tables.values table) ⟨state, table, value⟩ = values) :
    Mirrors { session with bindings := session.bindings.push table value unchanged }
      (tables.change table values) := by
  have pushed : ∃ state, (session.bindings.push table value unchanged).entries.toList =
      session.bindings.entries.toList ++ [⟨state, table, value⟩] := by
    unfold Bindings.push
    cases unchanged with
    | true => exact ⟨_, Array.toList_push⟩
    | false => exact ⟨_, Array.toList_push⟩
  obtain ⟨state, entries⟩ := pushed
  constructor
  · intro other
    change shown other (session.bindings.push table value unchanged).entries.toList =
      if other = table then values else tables.values other
    rw [entries, shown_concat, mirrors.values]
    by_cases named : other = table
    · rw [if_pos named, named]
      exact changed state
    · rw [if_neg named]
      exact if_neg fun same => named same.symm
  · change (session.bindings.push table value unchanged).size = tables.height + 1
    rw [size_push, mirrors.height]
  · exact settled_push _ _ _ _
  · exact mirrors.taken
  · intro taken snapshot found
    obtain ⟨save, here, stands⟩ := mirrors.saves taken snapshot found
    exact ⟨save, here, stands.push table value unchanged⟩

theorem save (mirrors : Mirrors session tables) :
    Mirrors
      { session with saves := session.saves ++ [⟨session.bindings.save, session.bindings.state⟩] }
      { tables with snapshots := tables.snapshots ++ [some ⟨tables.values, tables.height⟩] } := by
  refine ⟨mirrors.values, mirrors.height, mirrors.settled, ?_, ?_⟩
  · rw [List.length_append, List.length_append, mirrors.taken]
    rfl
  · intro taken snapshot found
    have lengths := mirrors.taken
    unfold Tables.snapshot? at found
    rcases Nat.lt_trichotomy taken session.saves.length with below | last | beyond
    · rw [List.getElem?_append_left (by omega)] at found
      obtain ⟨save, here, stands⟩ := mirrors.saves taken snapshot found
      exact ⟨save, by rw [List.getElem?_append_left below]; exact here, stands⟩
    · rw [last, lengths, List.getElem?_concat_length, Option.join_some, Option.some.injEq] at found
      subst found
      rw [last, List.getElem?_concat_length]
      refine ⟨_, rfl, mirrors.height, Nat.le_refl _, ?_, mirrors.settled.stateAt_save⟩
      intro table
      change shown table (session.bindings.entries.toList.take session.bindings.size) = _
      rw [take_size]
      exact mirrors.values table
    · rw [List.getElem?_append_right (by omega), List.getElem?_singleton,
        if_neg (by omega)] at found
      cases found

theorem restore (mirrors : Mirrors session tables) {save : Save} {snapshot : Snapshot}
    (stands : Stands session.bindings save snapshot) :
    Mirrors { session with bindings := session.bindings.restore save.mark }
      (tables.reinstate snapshot) := by
  have here := stands.restore (Nat.le_refl _) stands.within
  have entries := entries_restore session.bindings save.mark
  constructor
  · intro table
    change shown table (session.bindings.restore save.mark).entries.toList = _
    rw [entries]
    exact stands.values table
  · change (session.bindings.restore save.mark).size = snapshot.height
    have within := stands.within
    rw [← stands.height]
    unfold Bindings.size at within ⊢
    rw [← Array.length_toList, entries, List.length_take, Array.length_toList]
    omega
  · exact mirrors.settled.restore save.mark
  · change session.saves.length = (tables.snapshots.map _).length
    rw [List.length_map]
    exact mirrors.taken
  · intro taken other found
    obtain ⟨kept, held, filtered⟩ : ∃ kept, tables.snapshots[taken]? = some kept ∧
        kept.filter (fun other => decide (other.height ≤ snapshot.height)) = some other := by
      unfold Tables.snapshot? Tables.reinstate at found
      rw [List.getElem?_map, Option.join_eq_some_iff, Option.map_eq_some_iff] at found
      exact found
    obtain ⟨same, below⟩ := Option.filter_eq_some_iff.mp filtered
    subst same
    have found' : tables.snapshot? taken = some other := by
      unfold Tables.snapshot?
      rw [held, Option.join_some]
    obtain ⟨save', here', stands'⟩ := mirrors.saves taken other found'
    have ordered : save'.mark.size ≤ save.mark.size := by
      rw [stands'.height, stands.height]
      exact of_decide_eq_true below
    exact ⟨save', here', stands'.restore ordered stands.within⟩

/-- Where the tables answer a request, so does the stack. -/
theorem step (mirrors : Mirrors session tables) {request : Request} {tables' : Tables}
    (answered : tables.answer? request = some tables') :
    ∃ session', session.answer? request = some session' ∧ Mirrors session' tables' := by
  cases request with
  | define table value =>
      cases answered
      exact ⟨_, rfl, mirrors.push table (some value) _ fun state => if_pos rfl⟩
  | mask table =>
      cases answered
      exact ⟨_, rfl, mirrors.push table none _ fun state => if_pos rfl⟩
  | save =>
      cases answered
      exact ⟨_, rfl, mirrors.save⟩
  | restore taken =>
      obtain ⟨snapshot, found, rfl⟩ := Option.map_eq_some_iff.mp answered
      obtain ⟨save, here, stands⟩ := mirrors.saves taken snapshot found
      refine ⟨_, ?_, mirrors.restore stands⟩
      simp only [Session.answer?, here, Option.map_some]

end Mirrors

theorem run_mirrors (requests : List Request) {tables : Tables}
    (answered : Tables.run requests = some tables) :
    ∃ session, Session.run requests = some session ∧ Mirrors session tables := by
  induction requests using List.reverseRecOn generalizing tables with
  | nil =>
      cases answered
      exact ⟨_, rfl, Mirrors.fresh⟩
  | append_singleton requests request ih =>
      unfold Tables.run at answered
      rw [List.foldlM_append, Option.bind_eq_bind, Option.bind_eq_some_iff] at answered
      obtain ⟨middle, before, last⟩ := answered
      change (middle.answer? request >>= pure) = some tables at last
      rw [bind_pure] at last
      obtain ⟨session, run, mirrors⟩ := ih before
      obtain ⟨session', applied, mirrors'⟩ := mirrors.step last
      refine ⟨session', ?_, mirrors'⟩
      unfold Session.run at run ⊢
      rw [List.foldlM_append, run]
      change (session.answer? request >>= pure) = some session'
      rw [bind_pure]
      exact applied

/-- The shared stack behaves like one list of values for each table. Whatever is bound, hidden, saved
and restored, every question about a table is answered from the list of the values that it shows; the
state number of a mark that is not cut off is the one there was when it was taken; and the state number
is that of the newest entry, zero without entries. -/
theorem stack_refines_tables (requests : List Request) {tables : Tables}
    (answered : Tables.run requests = some tables) :
    ∃ session, Session.run requests = some session ∧
      (∀ table, session.bindings.lookup table = (tables.values table).head? ∧
        (session.bindings.bound table = true ↔ tables.values table ≠ []) ∧
        ∀ bytes,
          (session.bindings.isLatest table bytes = true ↔
            (tables.values table).head? = some bytes) ∧
          (session.bindings.contains table bytes = true ↔ bytes ∈ tables.values table)) ∧
      (∀ taken snapshot, tables.snapshot? taken = some snapshot →
        ∃ save, session.saves[taken]? = some save ∧
          session.bindings.stateAt save.mark = save.state) ∧
      session.bindings.state =
        (session.bindings.entries.back?.map Binding.state).getD 0 := by
  obtain ⟨session, run, mirrors⟩ := run_mirrors requests answered
  have latest (table : Symbol) :
      session.bindings.lookup table = (tables.values table).head? := by
    unfold Bindings.lookup
    rw [lookupBelow_eq_head?, take_size, mirrors.values]
  refine ⟨session, run, fun table => ⟨latest table, ?_, fun bytes => ⟨?_, ?_⟩⟩, ?_,
    mirrors.settled⟩
  · unfold Bindings.bound
    rw [latest]
    cases tables.values table with
    | nil => exact ⟨nofun, fun bound => absurd rfl bound⟩
    | cons value older => exact ⟨fun _ => nofun, fun _ => rfl⟩
  · unfold Bindings.isLatest
    rw [latest, beq_iff_eq]
  · unfold Bindings.contains
    rw [containsBelow_eq_mem, take_size, mirrors.values, decide_eq_true_iff]
  · intro taken snapshot found
    obtain ⟨save, here, stands⟩ := mirrors.saves taken snapshot found
    exact ⟨save, here, stands.state⟩

/-- Scopes over two tables: a table is bound to its value once more, hidden and bound again, the inner
save is restored twice, and the outer one is left in use. -/
def nestedScopes : List Request :=
  [.define ⟨1⟩ #[0x61], .define ⟨1⟩ #[0x62], .save, .define ⟨1⟩ #[0x62], .save, .mask ⟨1⟩,
    .define ⟨2⟩ #[0x63], .define ⟨1⟩ #[0x64], .restore 1, .restore 1, .define ⟨2⟩ #[0x65]]

theorem stack_refines_tables_scoped :
    ∃ session, Session.run nestedScopes = some session ∧
      session.bindings.lookup ⟨1⟩ = some #[0x62] ∧
      session.bindings.contains ⟨1⟩ #[0x61] = true ∧
      ¬ session.bindings.contains ⟨1⟩ #[0x64] = true ∧
      session.bindings.lookup ⟨2⟩ = some #[0x65] ∧
      ∃ save, session.saves[0]? = some save ∧ session.bindings.stateAt save.mark = save.state := by
  obtain ⟨tables, answered⟩ : ∃ tables, Tables.run nestedScopes = some tables := ⟨_, rfl⟩
  have first : tables.values ⟨1⟩ = [#[0x62], #[0x62], #[0x61]] := by cases answered; rfl
  have second : tables.values ⟨2⟩ = [#[0x65]] := by cases answered; rfl
  have outer : ∃ snapshot, tables.snapshot? 0 = some snapshot := by cases answered; exact ⟨_, rfl⟩
  obtain ⟨snapshot, live⟩ := outer
  obtain ⟨session, run, answers, states, _⟩ := stack_refines_tables nestedScopes answered
  obtain ⟨latest, _, questions⟩ := answers ⟨1⟩
  refine ⟨session, run, ?_, ?_, ?_, ?_, states 0 snapshot live⟩
  · rw [latest, first]
    rfl
  · rw [(questions _).2, first]
    decide
  · rw [(questions _).2, first]
    decide
  · rw [(answers ⟨2⟩).1, second]
    rfl

end Packrat.Bindings
