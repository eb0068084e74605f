/-
All entries of a table of memoized outcomes, whether a lookup can still reach them or not. An entry is
there because it was recorded.
-/

import Packrat.Proofs.Memo.History

namespace Packrat.MemoTable

variable {τ : Type}

def Holds (table : MemoTable τ) (slot : MemoSlot τ) : Prop :=
  match table.store with
  | .disabled => False
  | .elastic slots _ => some slot ∈ slots
  | .exact entries => (slot.point, slot.entry) ∈ entries.getD slot.pos []

theorem mem_of_firstFresh {point : MemoId} {state : Option Nat} {stale : Nat}
    {entries : List (MemoId × MemoEntry τ)} {entry : MemoEntry τ}
    (answers : (firstFresh point state stale entries).1 = some entry) : (point, entry) ∈ entries := by
  induction entries generalizing stale with
  | nil => cases answers
  | cons head older ih =>
      obtain ⟨other, newest⟩ := head
      rw [firstFresh] at answers
      by_cases named : other = point
      · rw [if_pos named] at answers
        by_cases fresh : newest.isFresh state = true
        · rw [if_pos fresh, Option.some.injEq] at answers
          rw [← named, answers]
          exact List.mem_cons_self
        · rw [if_neg fresh] at answers
          exact List.mem_cons_of_mem _ (ih answers)
      · rw [if_neg named] at answers
        exact List.mem_cons_of_mem _ (ih answers)

/-- A lookup is answered with an entry of the table. -/
theorem holds_of_find {table : MemoTable τ} {pos : Nat} {point : MemoId} {state : Option Nat}
    {entry : MemoEntry τ} (answers : (table.find pos point state).1 = some entry) :
    table.Holds ⟨pos, point, entry⟩ := by
  obtain ⟨store, stored, used, invalidated⟩ := table
  cases store with
  | disabled => cases answers
  | exact entries => exact mem_of_firstFresh answers
  | elastic slots shift =>
      simp only [find] at answers
      split at answers
      · next slot found =>
          by_cases named : slot.pos = pos ∧ slot.point = point
          · rw [if_pos named] at answers
            by_cases fresh : slot.entry.isFresh state = true
            · rw [if_pos fresh, Option.some.injEq] at answers
              obtain ⟨rfl, rfl⟩ := named
              subst answers
              exact Array.mem_of_getElem? found
            · rw [if_neg fresh] at answers
              cases answers
          · rw [if_neg named] at answers
            cases answers
      · cases answers

/-- A record adds its own entry and no other one. -/
theorem holds_record {table : MemoTable τ} {pos : Nat} {point : MemoId} {entry : MemoEntry τ}
    {slot : MemoSlot τ} (holds : (table.record pos point entry).Holds slot) :
    slot = ⟨pos, point, entry⟩ ∨ table.Holds slot := by
  obtain ⟨store, stored, used, invalidated⟩ := table
  cases store with
  | disabled => cases holds
  | elastic slots shift =>
      rcases Array.mem_or_eq_of_mem_setIfInBounds holds with before | written
      · exact .inr before
      · exact .inl (Option.some.inj written)
  | exact entries =>
      obtain ⟨pos', point', entry'⟩ := slot
      simp only [Holds, record, Std.HashMap.getD_insert] at holds ⊢
      by_cases same : pos = pos'
      · subst same
        simp only [beq_self_eq_true, if_true] at holds
        rcases List.mem_cons.mp holds with written | older
        · cases written
          exact .inl rfl
        · exact .inr older
      · simp only [beq_iff_eq, same, if_false] at holds
        exact .inr holds

theorem not_holds_ofOptions (options : Options) (points : Nat) (slot : MemoSlot τ) :
    ¬ (ofOptions options points : MemoTable τ).Holds slot := by
  let recipe : Recipe := .ofOptions options points
  intro holds
  change (recipe.table : MemoTable τ).Holds slot at holds
  rw [recipe.table_eq] at holds
  unfold Recipe.blank at holds
  cases strategy : recipe.strategy with
  | disabled =>
      rw [strategy] at holds
      cases holds
  | elastic =>
      rw [strategy] at holds
      have vacant : some slot = none := (Array.mem_replicate.mp holds).2
      cases vacant
  | exact =>
      rw [strategy] at holds
      have listed : (slot.point, slot.entry) ∈ (∅ : Std.HashMap Nat _).getD slot.pos [] := holds
      rw [Std.HashMap.getD_empty] at listed
      cases listed

end Packrat.MemoTable
