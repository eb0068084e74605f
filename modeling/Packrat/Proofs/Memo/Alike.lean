/-
Tables that differ only in the nodes of their entries. They answer alike, count alike, and stay so
when the same is recorded in both.
-/

import Packrat.Memo.Table

namespace Packrat

variable {τ : Type}

/-! ### Entries without their nodes -/

def MemoEntry.bare (entry : MemoEntry τ) : MemoEntry τ :=
  { entry with result := none }

theorem MemoEntry.bare_inj {entry entry' : MemoEntry τ} (same : entry.bare = entry'.bare) :
    entry.failed = entry'.failed ∧ entry.consumed = entry'.consumed ∧
      entry.state = entry'.state := by
  simp only [MemoEntry.bare, MemoEntry.mk.injEq] at same
  obtain ⟨failed, consumed, _, state⟩ := same
  exact ⟨failed, consumed, state⟩

theorem MemoEntry.isFresh_bare (entry : MemoEntry τ) (state : Option Nat) :
    entry.bare.isFresh state = entry.isFresh state := by
  cases state <;> rfl

def MemoSlot.bare (slot : MemoSlot τ) : MemoSlot τ :=
  { slot with entry := slot.entry.bare }

def bareEntries (entries : List (MemoId × MemoEntry τ)) : List (MemoId × MemoEntry τ) :=
  entries.map fun named => (named.1, named.2.bare)

inductive MemoStore.Alike : MemoStore τ → MemoStore τ → Prop
  | disabled : Alike .disabled .disabled
  | elastic {slots slots' : Array (Option (MemoSlot τ))} (shift : Nat)
      (same : slots.map (Option.map MemoSlot.bare) = slots'.map (Option.map MemoSlot.bare)) :
      Alike (.elastic slots shift) (.elastic slots' shift)
  | exact {entries entries' : Std.HashMap Nat (List (MemoId × MemoEntry τ))}
      (same : ∀ pos, bareEntries (entries.getD pos []) = bareEntries (entries'.getD pos [])) :
      Alike (.exact entries) (.exact entries')

namespace MemoTable

structure Alike (table table' : MemoTable τ) : Prop where
  store : table.store.Alike table'.store
  stored : table.stored = table'.stored
  used : table.used = table'.used
  invalidated : table.invalidated = table'.invalidated

theorem Alike.refl (table : MemoTable τ) : table.Alike table := by
  obtain ⟨store, stored, used, invalidated⟩ := table
  refine ⟨?_, rfl, rfl, rfl⟩
  cases store with
  | disabled => exact .disabled
  | elastic slots shift => exact .elastic shift rfl
  | exact entries => exact .exact fun _ => rfl

/-! ### Answers -/

/-- Answers are alike that differ in the node of the entry at most. -/
def bareAnswer (answer : Option (MemoEntry τ) × Nat) : Option (MemoEntry τ) × Nat :=
  (answer.1.map MemoEntry.bare, answer.2)

/-- A change of entries that keeps them as fresh as they are changes what is found and not where. -/
theorem firstFresh_map {τ' : Type} {change : MemoEntry τ → MemoEntry τ'} {state : Option Nat}
    (fresh : ∀ entry, (change entry).isFresh state = entry.isFresh state) (point : MemoId)
    (stale : Nat) (entries : List (MemoId × MemoEntry τ)) :
    firstFresh point state stale (entries.map fun named => (named.1, change named.2)) =
      ((firstFresh point state stale entries).1.map change,
        (firstFresh point state stale entries).2) := by
  induction entries generalizing stale with
  | nil => rfl
  | cons head older ih =>
      obtain ⟨other, entry⟩ := head
      rw [List.map_cons, firstFresh, firstFresh, fresh]
      by_cases named : other = point
      · rw [if_pos named, if_pos named]
        by_cases usable : entry.isFresh state = true
        · rw [if_pos usable, if_pos usable]
          rfl
        · rw [if_neg usable, if_neg usable]
          exact ih (stale + 1)
      · rw [if_neg named, if_neg named]
        exact ih stale

theorem firstFresh_bare (point : MemoId) (state : Option Nat) (stale : Nat)
    (entries : List (MemoId × MemoEntry τ)) :
    bareAnswer (firstFresh point state stale entries) =
      firstFresh point state stale (bareEntries entries) :=
  (firstFresh_map (fun entry => entry.isFresh_bare state) point stale entries).symm

def slotAnswer (pos : Nat) (point : MemoId) (state : Option Nat) :
    Option (Option (MemoSlot τ)) → Option (MemoEntry τ) × Nat
  | some (some slot) =>
    if slot.pos = pos ∧ slot.point = point then
      if slot.entry.isFresh state then (some slot.entry, 0) else (none, 1)
    else (none, 0)
  | _ => (none, 0)

theorem slotAnswer_map {τ' : Type} {change : MemoEntry τ → MemoEntry τ'} {state : Option Nat}
    (fresh : ∀ entry, (change entry).isFresh state = entry.isFresh state) (pos : Nat)
    (point : MemoId) (found : Option (Option (MemoSlot τ))) :
    slotAnswer pos point state
        (found.map (Option.map fun slot => ⟨slot.pos, slot.point, change slot.entry⟩)) =
      ((slotAnswer pos point state found).1.map change, (slotAnswer pos point state found).2) := by
  rcases found with _ | _ | slot
  · rfl
  · rfl
  · simp only [slotAnswer, Option.map_some, fresh]
    by_cases named : slot.pos = pos ∧ slot.point = point
    · rw [if_pos named, if_pos named]
      by_cases usable : slot.entry.isFresh state = true
      · rw [if_pos usable, if_pos usable]
        rfl
      · rw [if_neg usable, if_neg usable]
        rfl
    · rw [if_neg named, if_neg named]
      rfl

theorem slotAnswer_bare (pos : Nat) (point : MemoId) (state : Option Nat)
    (found : Option (Option (MemoSlot τ))) :
    bareAnswer (slotAnswer pos point state found) =
      slotAnswer pos point state (found.map (Option.map MemoSlot.bare)) :=
  (slotAnswer_map (fun entry => entry.isFresh_bare state) pos point found).symm

theorem find_elastic (slots : Array (Option (MemoSlot τ))) (shift stored used invalidated pos : Nat)
    (point : MemoId) (state : Option Nat) :
    (⟨.elastic slots shift, stored, used, invalidated⟩ : MemoTable τ).find pos point state =
      slotAnswer pos point state slots[slotIndex pos point shift slots.size]? := by
  rcases found : slots[slotIndex pos point shift slots.size]? with _ | _ | slot
  · simp only [find, found, slotAnswer]
  · simp only [find, found, slotAnswer]
  · simp only [find, found, slotAnswer]

variable {table table' : MemoTable τ}

theorem Alike.find (alike : table.Alike table') (pos : Nat) (point : MemoId)
    (state : Option Nat) :
    bareAnswer (table.find pos point state) = bareAnswer (table'.find pos point state) := by
  obtain ⟨store, stored, used, invalidated⟩ := table
  obtain ⟨store', stored', used', invalidated'⟩ := table'
  obtain ⟨same, _, _, _⟩ := alike
  cases same with
  | disabled => rfl
  | @elastic slots slots' shift same =>
      have size : slots.size = slots'.size := by
        have sizes := congrArg Array.size same
        rw [Array.size_map, Array.size_map] at sizes
        exact sizes
      rw [find_elastic, find_elastic, slotAnswer_bare, slotAnswer_bare, ← Array.getElem?_map,
        ← Array.getElem?_map, same, size]
  | @exact entries entries' same =>
      change bareAnswer (firstFresh point state 0 (entries.getD pos [])) =
        bareAnswer (firstFresh point state 0 (entries'.getD pos []))
      rw [firstFresh_bare, firstFresh_bare, same]

theorem Alike.lookup (alike : table.Alike table') (pos : Nat) (point : MemoId)
    (state : Option Nat) :
    (table.lookup pos point state).1.map MemoEntry.bare =
        (table'.lookup pos point state).1.map MemoEntry.bare ∧
      (table.lookup pos point state).2.Alike (table'.lookup pos point state).2 := by
  have answers := alike.find pos point state
  have entry : (table.find pos point state).1.map MemoEntry.bare =
      (table'.find pos point state).1.map MemoEntry.bare := (Prod.mk.inj answers).1
  have stale : (table.find pos point state).2 = (table'.find pos point state).2 :=
    (Prod.mk.inj answers).2
  have known : (table.find pos point state).1.isSome = (table'.find pos point state).1.isSome := by
    rw [← Option.isSome_map, entry, Option.isSome_map]
  refine ⟨entry, ⟨alike.store, alike.stored, ?_, ?_⟩⟩
  · change table.used + (if (table.find pos point state).1.isSome then 1 else 0) =
      table'.used + (if (table'.find pos point state).1.isSome then 1 else 0)
    rw [alike.used, known]
  · change table.invalidated + (table.find pos point state).2 =
      table'.invalidated + (table'.find pos point state).2
    rw [alike.invalidated, stale]

/-! ### Recording -/

theorem Alike.record (alike : table.Alike table') (pos : Nat) (point : MemoId)
    {entry entry' : MemoEntry τ} (same : entry.bare = entry'.bare) :
    (table.record pos point entry).Alike (table'.record pos point entry') := by
  obtain ⟨store, stored, used, invalidated⟩ := table
  obtain ⟨store', stored', used', invalidated'⟩ := table'
  obtain ⟨stores, sameStored, sameUsed, sameInvalidated⟩ := alike
  cases stores with
  | disabled => exact ⟨.disabled, sameStored, sameUsed, sameInvalidated⟩
  | @elastic slots slots' shift sameSlots =>
      refine ⟨.elastic shift ?_, congrArg (· + 1) sameStored, sameUsed, sameInvalidated⟩
      have size : slots.size = slots'.size := by
        have sizes := congrArg Array.size sameSlots
        rw [Array.size_map, Array.size_map] at sizes
        exact sizes
      have slot : (⟨pos, point, entry⟩ : MemoSlot τ).bare =
          (⟨pos, point, entry'⟩ : MemoSlot τ).bare := by
        unfold MemoSlot.bare
        rw [same]
      rw [Array.map_setIfInBounds, Array.map_setIfInBounds, sameSlots, size, Option.map_some,
        Option.map_some, slot]
  | @exact entries entries' sameEntries =>
      refine ⟨.exact fun pos' => ?_, congrArg (· + 1) sameStored, sameUsed, sameInvalidated⟩
      rw [Std.HashMap.getD_insert, Std.HashMap.getD_insert]
      by_cases here : pos = pos'
      · subst here
        have rest := sameEntries pos
        simp only [bareEntries] at rest
        simp only [beq_self_eq_true, if_true, bareEntries, List.map_cons, rest, same]
      · simp only [beq_iff_eq, here, if_false]
        exact sameEntries pos'

end MemoTable

end Packrat
