/-
What a table of memoized outcomes can answer: only what was recorded for the same memo point at the
same position. A record may displace other outcomes, and never adds one beside its own.
-/

import Packrat.Memo.Table

namespace Packrat.MemoTable

variable {τ : Type}

theorem firstFresh_stale (point : MemoId) (state : Option Nat)
    (entries : List (MemoId × MemoEntry τ)) (stale stale' : Nat) :
    (firstFresh point state stale entries).1 = (firstFresh point state stale' entries).1 := by
  induction entries generalizing stale stale' with
  | nil => rfl
  | cons head older ih =>
      obtain ⟨other, entry⟩ := head
      rw [firstFresh, firstFresh]
      by_cases named : other = point
      · rw [if_pos named, if_pos named]
        by_cases fresh : entry.isFresh state = true
        · rw [if_pos fresh, if_pos fresh]
        · rw [if_neg fresh, if_neg fresh]
          exact ih (stale + 1) (stale' + 1)
      · rw [if_neg named, if_neg named]
        exact ih stale stale'

theorem firstFresh_cons {point other : MemoId} {state : Option Nat} {entry found : MemoEntry τ}
    {older : List (MemoId × MemoEntry τ)} {stale : Nat}
    (answers : (firstFresh point state stale ((other, entry) :: older)).1 = some found) :
    (other = point ∧ found = entry) ∨ (firstFresh point state stale older).1 = some found := by
  rw [firstFresh] at answers
  by_cases named : other = point
  · rw [if_pos named] at answers
    by_cases fresh : entry.isFresh state = true
    · rw [if_pos fresh, Option.some.injEq] at answers
      exact .inl ⟨named, answers.symm⟩
    · rw [if_neg fresh, firstFresh_stale point state older (stale + 1) stale] at answers
      exact .inr answers
  · rw [if_neg named] at answers
    exact .inr answers

theorem firstFresh_isFresh {point : MemoId} {state : Option Nat}
    {entries : List (MemoId × MemoEntry τ)} {stale : Nat} {entry : MemoEntry τ}
    (answers : (firstFresh point state stale entries).1 = some entry) :
    entry.isFresh state = true := by
  induction entries generalizing stale with
  | nil => cases answers
  | cons head older ih =>
      obtain ⟨other, newest⟩ := head
      rw [firstFresh] at answers
      by_cases named : other = point
      · rw [if_pos named] at answers
        by_cases fresh : newest.isFresh state = true
        · rw [if_pos fresh, Option.some.injEq] at answers
          rw [← answers]
          exact fresh
        · rw [if_neg fresh] at answers
          exact ih answers
      · rw [if_neg named] at answers
        exact ih answers

/-- A table answers for the state that it is asked for. -/
theorem find_isFresh {table : MemoTable τ} {pos : Nat} {point : MemoId} {state : Option Nat}
    {entry : MemoEntry τ} (answers : (table.find pos point state).1 = some entry) :
    entry.isFresh state = true := by
  obtain ⟨store, stored, used, invalidated⟩ := table
  cases store with
  | disabled => cases answers
  | elastic slots shift =>
      simp only [find] at answers
      split at answers
      · next slot _ =>
          by_cases named : slot.pos = pos ∧ slot.point = point
          · rw [if_pos named] at answers
            by_cases fresh : slot.entry.isFresh state = true
            · rw [if_pos fresh, Option.some.injEq] at answers
              rw [← answers]
              exact fresh
            · rw [if_neg fresh] at answers
              cases answers
          · rw [if_neg named] at answers
            cases answers
      · cases answers
  | exact entries => exact firstFresh_isFresh answers

/-- A table that a record was made in answers with that record or as it did before. -/
theorem find_record {table : MemoTable τ} {pos pos' : Nat} {point point' : MemoId}
    {entry found : MemoEntry τ} {state : Option Nat}
    (answers : ((table.record pos point entry).find pos' point' state).1 = some found) :
    (pos' = pos ∧ point' = point ∧ found = entry) ∨
      (table.find pos' point' state).1 = some found := by
  obtain ⟨store, stored, used, invalidated⟩ := table
  cases store with
  | disabled => cases answers
  | elastic slots shift =>
      simp only [record, find, Array.size_setIfInBounds] at answers ⊢
      let written := slotIndex pos point shift slots.size
      by_cases same : slotIndex pos' point' shift slots.size = written
      · rw [same, Array.getElem?_setIfInBounds_self] at answers
        by_cases within : written < slots.size
        · rw [if_pos within] at answers
          by_cases named : pos = pos' ∧ point = point'
          · simp only [named, and_self, if_true] at answers
            by_cases fresh : entry.isFresh state = true
            · simp only [fresh, if_true, Option.some.injEq] at answers
              exact .inl ⟨named.1.symm, named.2.symm, answers.symm⟩
            · simp only [fresh] at answers
              cases answers
          · simp only [named, if_false] at answers
            cases answers
        · rw [if_neg within] at answers
          cases answers
      · rw [Array.getElem?_setIfInBounds_ne (Ne.symm same)] at answers
        exact .inr answers
  | exact entries =>
      simp only [record, find, Std.HashMap.getD_insert] at answers ⊢
      by_cases same : pos = pos'
      · subst same
        simp only [beq_self_eq_true, if_true] at answers
        rcases firstFresh_cons answers with ⟨named, content⟩ | older
        · exact .inl ⟨rfl, named.symm, content⟩
        · exact .inr older
      · simp only [beq_iff_eq, same, if_false] at answers
        exact .inr answers

theorem record_disabled {table : MemoTable τ} (disabled : table.store = .disabled) (pos : Nat)
    (point : MemoId) (entry : MemoEntry τ) : (table.record pos point entry).store = .disabled := by
  obtain ⟨store, stored, used, invalidated⟩ := table
  cases disabled
  rfl

theorem find_ofOptions (options : Options) (points pos : Nat) (point : MemoId)
    (state : Option Nat) :
    ((ofOptions options points : MemoTable τ).find pos point state).1 = none := by
  have elasticNone (capacity : Nat) :
      ((elastic capacity points : MemoTable τ).find pos point state).1 = none := by
    simp only [elastic, ofStore, find, Array.getElem?_replicate]
    split
    · next slot found =>
        split at found <;> cases found
    · rfl
  have newNone (strategy : MemoStrategy) :
      ((new strategy options.window points : MemoTable τ).find pos point state).1 = none := by
    unfold new
    split
    · rfl
    · cases strategy with
      | disabled => rfl
      | elastic => exact elasticNone _
      | exact => simp only [ofStore, find, Std.HashMap.getD_empty, firstFresh]
  unfold ofOptions
  split
  · rfl
  · split
    · rfl
    · exact elasticNone _
  · exact newNone _

/-- Without memoization there is no table, whatever its size was to be. -/
theorem ofOptions_disabled (options : Options) (points : Nat) :
    (ofOptions { options with memo := .disabled } points : MemoTable τ).store = .disabled := by
  change (new .disabled options.window points : MemoTable τ).store = .disabled
  unfold new
  split <;> rfl

end Packrat.MemoTable
