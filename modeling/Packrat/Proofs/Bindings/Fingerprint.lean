/-
The state number as a fingerprint. Numbers are given out in ascending order and never twice, and
restoring a mark brings an old number back together with the stack that it was given out for. So a
number stands for one view of the bindings, whatever was bound, hidden and given up in between, and
whatever marks are restored.
-/

import Packrat.Proofs.Bindings.Settled

namespace Packrat.Bindings

/-- What can be seen of the bindings: the latest binding of a table, and all its visible ones. -/
structure View where
  latest : Symbol → Option Bytes
  visible : Symbol → Bytes → Bool

def viewBelow (entries : Array Binding) (count : Nat) : View :=
  ⟨fun table => lookupBelow table entries count,
    fun table bytes => containsBelow table bytes entries count⟩

def view (bindings : Bindings) : View := viewBelow bindings.entries bindings.size

/-! ### The view of a part of the stack -/

section Views

variable {entries entries' : Array Binding} {count : Nat} {table : Symbol}

theorem lookupBelow_congr (table : Symbol)
    (same : ∀ index < count, entries[index]? = entries'[index]?) :
    lookupBelow table entries count = lookupBelow table entries' count := by
  induction count with
  | zero => rfl
  | succ count ih =>
      have below := ih fun index within => same index (Nat.lt_succ_of_lt within)
      rw [lookupBelow, lookupBelow, same count (Nat.lt_succ_self count), below]

theorem containsBelow_congr (table : Symbol) (bytes : Bytes)
    (same : ∀ index < count, entries[index]? = entries'[index]?) :
    containsBelow table bytes entries count = containsBelow table bytes entries' count := by
  induction count with
  | zero => rfl
  | succ count ih =>
      have below := ih fun index within => same index (Nat.lt_succ_of_lt within)
      rw [containsBelow, containsBelow, same count (Nat.lt_succ_self count), below]

theorem viewBelow_congr (same : ∀ index < count, entries[index]? = entries'[index]?) :
    viewBelow entries count = viewBelow entries' count := by
  unfold viewBelow
  congr 1
  · funext table
    exact lookupBelow_congr table same
  · funext table bytes
    exact containsBelow_congr table bytes same

theorem viewBelow_push (within : count ≤ entries.size) (entry : Binding) :
    viewBelow (entries.push entry) count = viewBelow entries count := by
  apply viewBelow_congr
  intro index below
  rw [Array.getElem?_push, if_neg (by omega)]

theorem viewBelow_shrink {size : Nat} (within : count ≤ size) :
    viewBelow (entries.shrink size) count = viewBelow entries count := by
  apply viewBelow_congr
  intro index below
  rw [← Array.getElem?_toList, Array.toList_shrink, ← Array.getElem?_toList]
  exact List.getElem?_take_of_lt (Nat.lt_of_lt_of_le below within)

theorem contains_of_lookup {bytes : Bytes}
    (found : lookupBelow table entries count = some bytes) :
    containsBelow table bytes entries count = true := by
  induction count with
  | zero => cases found
  | succ count ih =>
      rw [lookupBelow] at found
      rw [containsBelow]
      cases here : entries[count]? with
      | none =>
          rw [here] at found
          exact ih found
      | some entry =>
          rw [here] at found
          dsimp only at found ⊢
          by_cases named : entry.table = table
          · rw [if_pos named] at found ⊢
            simp only [found, if_true]
          · rw [if_neg named] at found ⊢
            exact ih found

theorem contains_of_unbound (unbound : lookupBelow table entries count = none)
    (bytes : Bytes) : containsBelow table bytes entries count = false := by
  induction count with
  | zero => rfl
  | succ count ih =>
      rw [lookupBelow] at unbound
      rw [containsBelow]
      cases here : entries[count]? with
      | none =>
          rw [here] at unbound
          exact ih unbound
      | some entry =>
          rw [here] at unbound
          dsimp only at unbound ⊢
          by_cases named : entry.table = table
          · rw [if_pos named] at unbound ⊢
            rw [unbound]
          · rw [if_neg named] at unbound ⊢
            exact ih unbound

end Views

/-! ### Entries that change nothing visible -/

theorem lookupBelow_pushed (entries : Array Binding) (entry : Binding) (table : Symbol) :
    lookupBelow table (entries.push entry) (entries.size + 1) =
      if entry.table = table then entry.value else lookupBelow table entries entries.size := by
  have below : lookupBelow table (entries.push entry) entries.size =
      lookupBelow table entries entries.size :=
    congrFun (congrArg View.latest (viewBelow_push (Nat.le_refl _) entry)) table
  rw [lookupBelow, Array.getElem?_push_size, below]

theorem containsBelow_pushed (entries : Array Binding) (entry : Binding) (table : Symbol)
    (bytes : Bytes) :
    containsBelow table bytes (entries.push entry) (entries.size + 1) =
      if entry.table = table then
        match entry.value with
        | none => false
        | some value =>
          if value = bytes then true else containsBelow table bytes entries entries.size
      else containsBelow table bytes entries entries.size := by
  have below : containsBelow table bytes (entries.push entry) entries.size =
      containsBelow table bytes entries entries.size :=
    congrFun (congrFun (congrArg View.visible (viewBelow_push (Nat.le_refl _) entry)) table) bytes
  cases value : entry.value with
  | none => simp only [containsBelow, Array.getElem?_push_size, below, value]
  | some bound => simp only [containsBelow, Array.getElem?_push_size, below, value]

/-- The latest value of a table bound to it once more is not to be seen. -/
theorem view_rebound {bindings : Bindings} {table : Symbol} {value : Bytes}
    (latest : bindings.isLatest table value = true) (state : Nat) :
    viewBelow (bindings.entries.push ⟨state, table, some value⟩) (bindings.size + 1) =
      bindings.view := by
  have found : lookupBelow table bindings.entries bindings.entries.size = some value :=
    eq_of_beq latest
  unfold view viewBelow size
  congr 1
  · funext other
    rw [lookupBelow_pushed]
    by_cases named : table = other
    · subst named
      rw [if_pos rfl, found]
    · exact if_neg named
  · funext other bytes
    rw [containsBelow_pushed]
    by_cases named : table = other
    · subst named
      rw [if_pos rfl]
      by_cases same : value = bytes
      · subst same
        rw [contains_of_lookup found]
        exact if_pos rfl
      · exact if_neg same
    · exact if_neg named

/-- A mask over a table without a binding is not to be seen. -/
theorem view_remasked {bindings : Bindings} {table : Symbol}
    (unbound : bindings.bound table = false) (state : Nat) :
    viewBelow (bindings.entries.push ⟨state, table, none⟩) (bindings.size + 1) =
      bindings.view := by
  have absent : lookupBelow table bindings.entries bindings.entries.size = none :=
    Option.isSome_eq_false_iff.mp unbound |> Option.isNone_iff_eq_none.mp
  unfold view viewBelow size
  congr 1
  · funext other
    rw [lookupBelow_pushed]
    by_cases named : table = other
    · subst named
      rw [if_pos rfl, absent]
    · exact if_neg named
  · funext other bytes
    rw [containsBelow_pushed]
    by_cases named : table = other
    · subst named
      rw [if_pos rfl, contains_of_unbound absent]
    · exact if_neg named

/-! ### State numbers of the marks -/

theorem push_newest (bindings : Bindings) (table : Symbol) (value : Option Bytes)
    (unchanged : Bool) :
    (bindings.push table value unchanged).entries =
      bindings.entries.push ⟨(bindings.push table value unchanged).state, table, value⟩ := by
  cases unchanged <;> rfl

theorem size_push (bindings : Bindings) (table : Symbol) (value : Option Bytes)
    (unchanged : Bool) : (bindings.push table value unchanged).size = bindings.size + 1 := by
  unfold size
  rw [push_newest, Array.size_push]

theorem stateAt_push (bindings : Bindings) (table : Symbol) (value : Option Bytes)
    (unchanged : Bool) (mark : BindingMark) :
    (bindings.push table value unchanged).stateAt mark =
      if mark.size = bindings.size + 1 then (bindings.push table value unchanged).state
      else bindings.stateAt mark := by
  obtain ⟨count⟩ := mark
  cases count with
  | zero => rfl
  | succ last =>
      unfold stateAt
      simp only [push_newest, Array.getElem?_push, Nat.add_right_cancel_iff]
      by_cases newest : last = bindings.size
      · subst newest
        simp only [size, if_true, Option.map_some, Option.getD_some]
      · have other : last ≠ bindings.entries.size := newest
        simp only [newest, other, if_false]

theorem stateAt_restore (bindings : Bindings) (mark other : BindingMark) :
    (bindings.restore mark).stateAt other =
      if other.size ≤ mark.size then bindings.stateAt other
      else if mark.size < bindings.size then 0 else bindings.stateAt other := by
  unfold restore
  by_cases shorter : mark.size < bindings.size
  · simp only [if_pos shorter]
    obtain ⟨count⟩ := other
    cases count with
    | zero => simp only [stateAt, ite_self]
    | succ last =>
        have cut : (bindings.entries.shrink mark.size)[last]? =
            if last < mark.size then bindings.entries[last]? else none := by
          rw [← Array.getElem?_toList, Array.toList_shrink, List.getElem?_take,
            Array.getElem?_toList]
        simp only [stateAt, cut, Nat.succ_le_iff]
        by_cases below : last < mark.size
        · simp only [below, if_true]
        · simp only [below, if_false, Option.map_none, Option.getD_none]
  · simp only [if_neg shorter, ite_self]

theorem Settled.stateAt_save {bindings : Bindings} (settled : bindings.Settled) :
    bindings.stateAt bindings.save = bindings.state := by
  rw [settled, Array.back?_eq_getElem?]
  unfold stateAt save size
  cases count : bindings.entries.size with
  | zero => rw [Array.getElem?_eq_none (by omega)]; rfl
  | succ last => rfl

/-! ### Histories -/

/-- A change of the bindings. Any mark may be restored, also one beyond the stack. -/
inductive Change where
  | define (table : Symbol) (value : Bytes)
  | mask (table : Symbol)
  | restore (mark : BindingMark)
deriving DecidableEq, Repr

def apply (bindings : Bindings) : Change → Bindings
  | .define table value => bindings.define table value
  | .mask table => bindings.mask table
  | .restore mark => bindings.restore mark

def applyAll (bindings : Bindings) (history : List Change) : Bindings :=
  history.foldl apply bindings

theorem applyAll_append (bindings : Bindings) (history more : List Change) :
    bindings.applyAll (history ++ more) = (bindings.applyAll history).applyAll more :=
  List.foldl_append

/-! ### The ledger -/

/-- Every number that a mark stands for has the view of that mark entered, and no number is greater
than the greatest that was given out. -/
structure Ledger (seen : Nat → View) (bindings : Bindings) : Prop where
  settled : bindings.Settled
  bounded : ∀ mark, bindings.stateAt mark ≤ bindings.generation
  views : ∀ mark : BindingMark, mark.size ≤ bindings.size →
    viewBelow bindings.entries mark.size = seen (bindings.stateAt mark)

/-- Numbers that were given out keep the view that they were given out for. -/
structure Keeps (seen seen' : Nat → View) (bindings bindings' : Bindings) : Prop where
  same : ∀ number ≤ bindings.generation, seen' number = seen number
  ascends : bindings.generation ≤ bindings'.generation

theorem generation_restore (bindings : Bindings) (mark : BindingMark) :
    (bindings.restore mark).generation = bindings.generation := by
  unfold restore
  split <;> rfl

namespace Keeps

variable {seen seen₁ seen₂ : Nat → View} {bindings bindings₁ bindings₂ : Bindings}

theorem of_generation (same : bindings₁.generation = bindings.generation) :
    Keeps seen seen bindings bindings₁ :=
  ⟨fun _ _ => rfl, Nat.le_of_eq same.symm⟩

theorem trans (first : Keeps seen seen₁ bindings bindings₁)
    (second : Keeps seen₁ seen₂ bindings₁ bindings₂) : Keeps seen seen₂ bindings bindings₂ := by
  constructor
  · intro number given
    rw [second.same number (Nat.le_trans given first.ascends), first.same number given]
  · exact Nat.le_trans first.ascends second.ascends

end Keeps

namespace Ledger

variable {seen : Nat → View} {bindings : Bindings}

theorem view_eq (ledger : Ledger seen bindings) : bindings.view = seen bindings.state := by
  rw [← ledger.settled.stateAt_save]
  exact ledger.views bindings.save (Nat.le_refl _)

theorem state_le (ledger : Ledger seen bindings) : bindings.state ≤ bindings.generation := by
  rw [← ledger.settled.stateAt_save]
  exact ledger.bounded bindings.save

theorem empty : Ledger (fun _ => Bindings.empty.view) Bindings.empty := by
  constructor
  · exact settled_empty
  · intro mark
    obtain ⟨count⟩ := mark
    cases count <;> exact Nat.le_refl 0
  · intro mark within
    rw [Nat.le_zero.mp within]
    rfl

/-- An entry is pushed under the number of the present state. -/
theorem push_unseen (ledger : Ledger seen bindings) (table : Symbol) (value : Option Bytes)
    (unseen : viewBelow (bindings.entries.push ⟨bindings.state, table, value⟩)
      (bindings.size + 1) = bindings.view) :
    Ledger seen (bindings.push table value true) := by
  constructor
  · exact settled_push bindings table value true
  · intro mark
    rw [stateAt_push]
    split
    · exact ledger.state_le
    · exact ledger.bounded mark
  · intro mark within
    rw [size_push] at within
    rw [stateAt_push, push_newest]
    by_cases newest : mark.size = bindings.size + 1
    · rw [if_pos newest, newest]
      exact unseen.trans ledger.view_eq
    · rw [if_neg newest, viewBelow_push (by unfold size at *; omega)]
      exact ledger.views mark (by omega)

/-- An entry is pushed under a new number. -/
theorem push_seen (ledger : Ledger seen bindings) (table : Symbol) (value : Option Bytes) :
    ∃ seen', Ledger seen' (bindings.push table value false) ∧
      Keeps seen seen' bindings (bindings.push table value false) := by
  let fresh := bindings.generation + 1
  let seen' (number : Nat) : View :=
    if number = fresh then (bindings.push table value false).view else seen number
  have old : ∀ number ≤ bindings.generation, seen' number = seen number := by
    intro number given
    exact if_neg (by omega)
  refine ⟨seen', ⟨settled_push bindings table value false, ?_, ?_⟩, old, Nat.le_succ _⟩
  · intro mark
    rw [stateAt_push]
    split
    · exact Nat.le_refl _
    · exact Nat.le_succ_of_le (ledger.bounded mark)
  · intro mark within
    rw [size_push] at within
    rw [stateAt_push]
    by_cases newest : mark.size = bindings.size + 1
    · rw [if_pos newest, newest, ← size_push bindings table value false]
      exact (if_pos rfl).symm
    · rw [if_neg newest, push_newest, viewBelow_push (by unfold size at *; omega),
        old _ (ledger.bounded mark)]
      exact ledger.views mark (by omega)

/-- What a mark brings back is in the ledger already. -/
theorem restore (ledger : Ledger seen bindings) (mark : BindingMark) :
    Ledger seen (bindings.restore mark) := by
  by_cases shorter : mark.size < bindings.size
  · have entries : (bindings.restore mark).entries = bindings.entries.shrink mark.size := by
      simp only [Bindings.restore, if_pos shorter]
    have size : (bindings.restore mark).size = mark.size := by
      unfold Bindings.size at shorter ⊢
      rw [entries, Array.size_shrink]
      omega
    constructor
    · exact ledger.settled.restore mark
    · intro other
      rw [generation_restore, stateAt_restore, if_pos shorter]
      split
      · exact ledger.bounded other
      · exact Nat.zero_le _
    · intro other within
      rw [size] at within
      rw [stateAt_restore, if_pos within, entries, viewBelow_shrink within]
      apply ledger.views
      omega
  · have same : bindings.restore mark = bindings := if_neg shorter
    rw [same]
    exact ledger

theorem apply (ledger : Ledger seen bindings) (change : Change) :
    ∃ seen', Ledger seen' (bindings.apply change) ∧
      Keeps seen seen' bindings (bindings.apply change) := by
  cases change with
  | define table value =>
      cases latest : bindings.isLatest table value with
      | true =>
          have kept := ledger.push_unseen table (some value) (view_rebound latest bindings.state)
          simp only [Bindings.apply, define, latest]
          exact ⟨seen, kept, .of_generation rfl⟩
      | false =>
          simp only [Bindings.apply, define, latest]
          exact ledger.push_seen table (some value)
  | mask table =>
      cases bound : bindings.bound table with
      | false =>
          have kept := ledger.push_unseen table none (view_remasked bound bindings.state)
          simp only [Bindings.apply, mask, bound]
          exact ⟨seen, kept, .of_generation rfl⟩
      | true =>
          simp only [Bindings.apply, mask, bound]
          exact ledger.push_seen table none
  | restore mark =>
      exact ⟨seen, ledger.restore mark, .of_generation (generation_restore bindings mark)⟩

theorem applyAll (ledger : Ledger seen bindings) (history : List Change) :
    ∃ seen', Ledger seen' (bindings.applyAll history) ∧
      Keeps seen seen' bindings (bindings.applyAll history) := by
  induction history generalizing seen bindings with
  | nil => exact ⟨seen, ledger, .of_generation rfl⟩
  | cons change rest ih =>
      obtain ⟨seen₁, ledger₁, kept₁⟩ := ledger.apply change
      obtain ⟨seen₂, ledger₂, kept₂⟩ := ih ledger₁
      exact ⟨seen₂, ledger₂, kept₁.trans kept₂⟩

end Ledger

theorem generation_apply (bindings : Bindings) (change : Change) :
    (bindings.apply change).generation ≤ bindings.generation + 1 := by
  have push (table : Symbol) (value : Option Bytes) (unchanged : Bool) :
      (bindings.push table value unchanged).generation ≤ bindings.generation + 1 := by
    cases unchanged with
    | true => exact Nat.le_succ _
    | false => exact Nat.le_refl _
  cases change with
  | define table value => exact push table (some value) _
  | mask table => exact push table none _
  | restore mark =>
      simp only [apply, generation_restore]
      exact Nat.le_succ _

theorem generation_applyAll (bindings : Bindings) (history : List Change) :
    (bindings.applyAll history).generation ≤ bindings.generation + history.length := by
  induction history generalizing bindings with
  | nil => exact Nat.le_refl _
  | cons change rest ih =>
      have first := generation_apply bindings change
      have others := ih (bindings.apply change)
      rw [List.length_cons]
      exact Nat.le_trans others (by omega)

/-- No number is greater than the count of the changes made, so numbers of 32 bits are enough for a
history of fewer than `2 ^ 32` changes. -/
theorem state_le_length (history : List Change) :
    (empty.applyAll history).state ≤ history.length := by
  obtain ⟨_, ledger, _⟩ := Ledger.empty.applyAll history
  calc (empty.applyAll history).state
      ≤ (empty.applyAll history).generation := ledger.state_le
    _ ≤ empty.generation + history.length := generation_applyAll empty history
    _ = history.length := Nat.zero_add _

/-- Later bindings with the number of earlier ones have their view. -/
theorem view_of_state_eq (before after : List Change)
    (same : ((empty.applyAll before).applyAll after).state = (empty.applyAll before).state) :
    ((empty.applyAll before).applyAll after).view = (empty.applyAll before).view := by
  obtain ⟨seen, ledger, _⟩ := Ledger.empty.applyAll before
  obtain ⟨seen', ledger', kept⟩ := ledger.applyAll after
  calc ((empty.applyAll before).applyAll after).view
      = seen' ((empty.applyAll before).applyAll after).state := ledger'.view_eq
    _ = seen' (empty.applyAll before).state := by rw [same]
    _ = seen (empty.applyAll before).state := kept.same _ ledger.state_le
    _ = (empty.applyAll before).view := ledger.view_eq.symm

theorem view_of_take_le (history : List Change) {first second : Nat} (ordered : first ≤ second)
    (same : (empty.applyAll (history.take first)).state =
      (empty.applyAll (history.take second)).state) :
    (empty.applyAll (history.take first)).view = (empty.applyAll (history.take second)).view := by
  have split : history.take second =
      history.take first ++ (history.drop first).take (second - first) := by
    rw [← List.take_add, Nat.add_sub_cancel' ordered]
  have whole : empty.applyAll (history.take second) =
      (empty.applyAll (history.take first)).applyAll
        ((history.drop first).take (second - first)) := by
    rw [split, applyAll_append]
  rw [whole] at same ⊢
  exact (view_of_state_eq _ _ same.symm).symm

/-- The fingerprint is sound. At two points of a history of changes with the same state number every
question about the bindings has the same answer, in whatever order the changes come and whatever
marks are restored. -/
theorem answers_eq_of_state_eq (history : List Change) (first second : Nat)
    (same : (empty.applyAll (history.take first)).state =
      (empty.applyAll (history.take second)).state) (table : Symbol) (bytes : Bytes) :
    let bindings := empty.applyAll (history.take first)
    let bindings' := empty.applyAll (history.take second)
    bindings.lookup table = bindings'.lookup table ∧
      bindings.bound table = bindings'.bound table ∧
      bindings.isLatest table bytes = bindings'.isLatest table bytes ∧
      bindings.contains table bytes = bindings'.contains table bytes := by
  intro bindings bindings'
  have views : bindings.view = bindings'.view := by
    rcases Nat.le_total first second with ordered | ordered
    · exact view_of_take_le history ordered same
    · exact (view_of_take_le history ordered same.symm).symm
  have latest : bindings.lookup table = bindings'.lookup table :=
    congrFun (congrArg View.latest views) table
  have visible : bindings.contains table bytes = bindings'.contains table bytes :=
    congrFun (congrFun (congrArg View.visible views) table) bytes
  refine ⟨latest, ?_, ?_, visible⟩
  · unfold bound
    rw [latest]
  · unfold isLatest
    rw [latest]

/-- A table is bound, bound to the same value again, bound to another one and hidden; then a stale
mark is restored, which is beyond the stack, and after it the mark of the first binding. -/
def returning : List Change :=
  [.define ⟨1⟩ #[0x61], .define ⟨1⟩ #[0x61], .define ⟨1⟩ #[0x62], .mask ⟨1⟩, .restore ⟨9⟩,
    .restore ⟨1⟩]

theorem answers_eq_returning :
    (empty.applyAll (returning.take 4)).state = 3 ∧
      (empty.applyAll (returning.take 2)).state = (empty.applyAll (returning.take 6)).state ∧
      (empty.applyAll (returning.take 2)).contains ⟨1⟩ #[0x62] =
        (empty.applyAll (returning.take 6)).contains ⟨1⟩ #[0x62] := by
  have same : (empty.applyAll (returning.take 2)).state =
      (empty.applyAll (returning.take 6)).state := by decide
  exact ⟨by decide, same, (answers_eq_of_state_eq returning 2 6 same ⟨1⟩ #[0x62]).2.2.2⟩

end Packrat.Bindings
