/-
Tables whose entries hold the images of nodes. They find what the tables with the nodes find, count
alike, and stay images when an outcome and its image are recorded.
-/

import Packrat.Proofs.Memo.History

namespace Packrat

variable {τ τ' : Type} {h : τ → τ'}

def MemoEntry.map (h : τ → τ') (entry : MemoEntry τ) : MemoEntry τ' :=
  ⟨entry.failed, entry.consumed, entry.result.map h, entry.state⟩

theorem MemoEntry.isFresh_map (entry : MemoEntry τ) (state : Option Nat) :
    (entry.map h).isFresh state = entry.isFresh state := by
  cases state <;> rfl

def MemoSlot.map (h : τ → τ') (slot : MemoSlot τ) : MemoSlot τ' :=
  ⟨slot.pos, slot.point, slot.entry.map h⟩

/-- The second entries are the images of the first ones. Where all are kept, the entries of each
position are compared: how they are stored may differ. -/
inductive MemoStore.Carries (h : τ → τ') : MemoStore τ → MemoStore τ' → Prop
  | disabled : Carries h .disabled .disabled
  | elastic (slots : Array (Option (MemoSlot τ))) (shift : Nat) :
      Carries h (.elastic slots shift) (.elastic (slots.map (Option.map (MemoSlot.map h))) shift)
  | exact {entries : Std.HashMap Nat (List (MemoId × MemoEntry τ))}
      {entries' : Std.HashMap Nat (List (MemoId × MemoEntry τ'))}
      (same : ∀ pos, entries'.getD pos [] =
        (entries.getD pos []).map fun named => (named.1, named.2.map h)) :
      Carries h (.exact entries) (.exact entries')

namespace MemoTable

structure Carries (h : τ → τ') (table : MemoTable τ) (table' : MemoTable τ') : Prop where
  store : table.store.Carries h table'.store
  stored : table'.stored = table.stored
  used : table'.used = table.used
  invalidated : table'.invalidated = table.invalidated

namespace Carries

variable {table : MemoTable τ} {table' : MemoTable τ'}

theorem made (h : τ → τ') (recipe : Recipe) :
    Carries h (recipe.table : MemoTable τ) (recipe.table : MemoTable τ') := by
  rw [recipe.table_eq, recipe.table_eq]
  refine ⟨?_, rfl, rfl, rfl⟩
  change MemoStore.Carries h recipe.blank recipe.blank
  unfold Recipe.blank
  cases recipe.strategy with
  | disabled => exact .disabled
  | exact =>
      refine .exact fun pos => ?_
      rw [Std.HashMap.getD_empty, Std.HashMap.getD_empty]
      rfl
  | elastic =>
      have empty := MemoStore.Carries.elastic (h := h) (Array.replicate recipe.count none)
        recipe.shift
      rw [Array.map_replicate] at empty
      exact empty

theorem find (carries : table.Carries h table') (pos : Nat) (point : MemoId) (state : Option Nat) :
    table'.find pos point state =
      ((table.find pos point state).1.map (MemoEntry.map h), (table.find pos point state).2) := by
  obtain ⟨store, stored, used, invalidated⟩ := table
  obtain ⟨store', stored', used', invalidated'⟩ := table'
  obtain ⟨stores, _, _, _⟩ := carries
  have fresh (entry : MemoEntry τ) : (entry.map h).isFresh state = entry.isFresh state :=
    entry.isFresh_map state
  cases stores with
  | disabled => rfl
  | elastic slots shift =>
      rw [find_elastic, find_elastic, Array.size_map, Array.getElem?_map]
      exact slotAnswer_map fresh pos point _
  | @exact entries entries' same =>
      change firstFresh point state 0 (entries'.getD pos []) = _
      rw [same]
      exact firstFresh_map fresh point 0 (entries.getD pos [])

theorem lookup (carries : table.Carries h table') (pos : Nat) (point : MemoId)
    (state : Option Nat) :
    (table'.lookup pos point state).1 = (table.lookup pos point state).1.map (MemoEntry.map h) ∧
      (table.lookup pos point state).2.Carries h (table'.lookup pos point state).2 := by
  have found := carries.find pos point state
  have known : (table'.find pos point state).1.isSome = (table.find pos point state).1.isSome := by
    rw [found, Option.isSome_map]
  refine ⟨congrArg Prod.fst found, carries.store, carries.stored, ?_, ?_⟩
  · change table'.used + (if (table'.find pos point state).1.isSome then 1 else 0) =
      table.used + (if (table.find pos point state).1.isSome then 1 else 0)
    rw [carries.used, known]
  · change table'.invalidated + (table'.find pos point state).2 =
      table.invalidated + (table.find pos point state).2
    rw [carries.invalidated, found]

theorem record (carries : table.Carries h table') (pos : Nat) (point : MemoId)
    (entry : MemoEntry τ) :
    (table.record pos point entry).Carries h (table'.record pos point (entry.map h)) := by
  obtain ⟨store, stored, used, invalidated⟩ := table
  obtain ⟨store', stored', used', invalidated'⟩ := table'
  obtain ⟨stores, sameStored, sameUsed, sameInvalidated⟩ := carries
  cases stores with
  | disabled => exact ⟨.disabled, sameStored, sameUsed, sameInvalidated⟩
  | elastic slots shift =>
      refine ⟨?_, congrArg (· + 1) sameStored, sameUsed, sameInvalidated⟩
      have written := MemoStore.Carries.elastic (h := h) (slots.setIfInBounds
        (slotIndex pos point shift slots.size) (some ⟨pos, point, entry⟩)) shift
      rw [Array.map_setIfInBounds] at written
      simp only [MemoTable.record, Array.size_map]
      exact written
  | @exact entries entries' same =>
      refine ⟨.exact fun other => ?_, congrArg (· + 1) sameStored, sameUsed, sameInvalidated⟩
      rw [Std.HashMap.getD_insert, Std.HashMap.getD_insert]
      by_cases here : pos = other
      · subst here
        simp only [beq_self_eq_true, if_true, List.map_cons, same]
      · simp only [beq_iff_eq, here, if_false]
        exact same other

end Carries

end MemoTable

end Packrat
