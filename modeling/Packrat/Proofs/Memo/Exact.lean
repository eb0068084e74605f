/-
Tables that keep every outcome. Whatever is recorded in one is known ever after, so a table that
starts with nothing and learns what it misses is asked for nothing in vain twice.
-/

import Mathlib.Data.List.Nodup
import Packrat.Memo.Table

namespace Packrat.MemoTable

variable {τ : Type}

def isExact (table : MemoTable τ) : Bool :=
  match table.store with
  | .exact _ => true
  | _ => false

/-- The table has an outcome for a memo point at a position, under whatever state of the bindings.
-/
def Knows (table : MemoTable τ) (key : MemoId × Nat) : Prop :=
  (table.find key.2 key.1 none).1.isSome = true

theorem isExact_ofOptions {options : Options} {points : Nat} (strategy : options.memo = .exact)
    (window : options.window ≠ 0) (used : points ≠ 0) :
    (ofOptions options points : MemoTable τ).isExact = true := by
  obtain ⟨memo, width, slots, tree, unconsumed⟩ := options
  cases strategy
  have kept : (new .exact width points : MemoTable τ) = ofStore (.exact ∅) := by
    unfold new
    rw [if_neg (not_or.mpr ⟨used, window⟩)]
  change (new .exact width points : MemoTable τ).isExact = true
  rw [kept]
  rfl

section Record

variable {table : MemoTable τ} (kept : table.isExact = true) (pos : Nat) (point : MemoId)
  (entry : MemoEntry τ)

include kept

theorem isExact_record : (table.record pos point entry).isExact = true := by
  obtain ⟨store, stored, used, invalidated⟩ := table
  cases store with
  | exact entries => rfl
  | disabled | elastic => cases kept

theorem knows_recorded : (table.record pos point entry).Knows (point, pos) := by
  obtain ⟨store, stored, used, invalidated⟩ := table
  cases store with
  | exact entries =>
      simp only [Knows, record, find, Std.HashMap.getD_insert_self]
      rw [firstFresh, if_pos rfl]
      rfl
  | disabled | elastic => cases kept

theorem Knows.record {key : MemoId × Nat} (known : table.Knows key) :
    (table.record pos point entry).Knows key := by
  obtain ⟨store, stored, used, invalidated⟩ := table
  cases store with
  | exact entries =>
      obtain ⟨other, place⟩ := key
      simp only [Knows, MemoTable.record, find, Std.HashMap.getD_insert] at known ⊢
      by_cases same : pos = place
      · subst same
        rw [if_pos (beq_self_eq_true pos), firstFresh]
        by_cases named : point = other
        · rw [if_pos named]
          rfl
        · rw [if_neg named]
          exact known
      · rw [if_neg (fun equal => same (eq_of_beq equal))]
        exact known
  | disabled | elastic => cases kept

end Record

/-! ### Learning -/

/-- A table has learnt what it was asked for in vain, each once, and has forgotten nothing. -/
structure Learns (before after : MemoTable τ) (missed : List (MemoId × Nat)) : Prop where
  exact : after.isExact = true
  distinct : missed.Nodup
  unknown : ∀ key ∈ missed, ¬ before.Knows key
  learnt : ∀ key ∈ missed, after.Knows key
  kept : ∀ key, before.Knows key → after.Knows key

namespace Learns

variable {before middle after : MemoTable τ} {missed more : List (MemoId × Nat)}

theorem idle (exact : before.isExact = true) (same : after.store = before.store) :
    Learns before after [] where
  exact := by
    unfold isExact at exact ⊢
    rw [same]
    exact exact
  distinct := .nil
  unknown := fun _ member => by cases member
  learnt := fun _ member => by cases member
  kept := fun key known => by
    unfold Knows find at known ⊢
    rw [same]
    exact known

/-- What is missed after is not known then, so it was not learnt before. -/
theorem trans (first : Learns before middle missed) (second : Learns middle after more) :
    Learns before after (missed ++ more) where
  exact := second.exact
  distinct := List.nodup_append.mpr ⟨first.distinct, second.distinct, fun key early other late => by
    rintro rfl
    exact second.unknown key late (first.learnt key early)⟩
  unknown := fun key member => by
    rcases List.mem_append.mp member with early | late
    · exact first.unknown key early
    · exact fun known => second.unknown key late (first.kept key known)
  learnt := fun key member => by
    rcases List.mem_append.mp member with early | late
    · exact second.kept key (first.learnt key early)
    · exact second.learnt key late
  kept := fun key known => second.kept key (first.kept key known)

/-- An outcome is recorded for what was asked for in vain before all else. -/
theorem record {point : MemoId} {pos : Nat} (learns : Learns before after missed)
    (unknown : ¬ before.Knows (point, pos)) (fresh : (point, pos) ∉ missed) (entry : MemoEntry τ) :
    Learns before (after.record pos point entry) ((point, pos) :: missed) where
  exact := isExact_record learns.exact pos point entry
  distinct := List.nodup_cons.mpr ⟨fresh, learns.distinct⟩
  unknown := List.forall_mem_cons.mpr ⟨unknown, learns.unknown⟩
  learnt := List.forall_mem_cons.mpr ⟨knows_recorded learns.exact pos point entry,
    fun key member => (learns.learnt key member).record learns.exact pos point entry⟩
  kept := fun key known => (learns.kept key known).record learns.exact pos point entry

end Learns

end Packrat.MemoTable
