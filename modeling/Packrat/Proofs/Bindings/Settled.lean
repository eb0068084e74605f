/-
The state number of the bindings. It is always that of the newest entry, so two stacks with the same
entries have the same state, whatever was bound and given up on the way to them.
-/

import Packrat.Bindings

namespace Packrat.Bindings

def Settled (bindings : Bindings) : Prop :=
  bindings.state = (bindings.entries.back?.map Binding.state).getD 0

theorem settled_empty : Settled empty := rfl

theorem settled_push (bindings : Bindings) (table : Symbol) (value : Option Bytes)
    (unchanged : Bool) : (bindings.push table value unchanged).Settled := by
  unfold Settled Bindings.push
  cases unchanged with
  | true => simp only [if_true, Array.back?_push, Option.map_some, Option.getD_some]
  | false =>
      simp only [Bool.false_eq_true, if_false, Array.back?_push, Option.map_some, Option.getD_some]

theorem entries_push (bindings : Bindings) (table : Symbol) (value : Option Bytes)
    (unchanged : Bool) : ∃ entry,
      (bindings.push table value unchanged).entries.toList = bindings.entries.toList ++ [entry] := by
  unfold Bindings.push
  cases unchanged with
  | true => exact ⟨_, Array.toList_push⟩
  | false => exact ⟨_, Array.toList_push⟩

theorem take_size (bindings : Bindings) :
    bindings.entries.toList.take bindings.size = bindings.entries.toList :=
  List.take_of_length_le (Nat.le_of_eq Array.length_toList)

/-- Entries made since the mark are dropped, and no others. -/
theorem entries_restore (bindings : Bindings) (mark : BindingMark) :
    (bindings.restore mark).entries.toList = bindings.entries.toList.take mark.size := by
  unfold Bindings.restore
  by_cases shorter : mark.size < bindings.size
  · rw [if_pos shorter]
    exact Array.toList_shrink
  · rw [if_neg shorter]
    refine (List.take_of_length_le ?_).symm
    rw [Array.length_toList]
    exact Nat.not_lt.mp shorter

theorem Settled.restore {bindings : Bindings} (settled : bindings.Settled) (mark : BindingMark) :
    (bindings.restore mark).Settled := by
  unfold Bindings.restore
  by_cases shorter : mark.size < bindings.size
  · rw [if_pos shorter]
    rfl
  · rw [if_neg shorter]
    exact settled

theorem Settled.state_eq {bindings other : Bindings} (settled : bindings.Settled)
    (settled' : other.Settled) (same : bindings.entries.toList = other.entries.toList) :
    bindings.state = other.state := by
  rw [settled, settled', Array.toList_inj.mp same]

end Packrat.Bindings
