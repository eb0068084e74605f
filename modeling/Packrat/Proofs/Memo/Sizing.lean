/-
How large a table is. A number of slots that is given is taken before the window, so an elastic table
with slots of its own memoizes whatever the window is; elsewhere a window of zero turns memoization
off, and so do slots of zero and a program without memo points. An elastic table has at least one slot
and never changes their number, so each key has a slot.
-/

import Packrat.Proofs.Memo.History

namespace Packrat.MemoTable

variable {τ : Type}

/-! ### The shape of a table -/

section Shape

variable {shift count : Nat} {history : List (MemoSlot τ)} {strategy : MemoStrategy}
  {table : MemoTable τ}

theorem Reflects.isDisabled (reflects : Reflects shift count history strategy table.store) :
    table.isDisabled = true ↔ strategy = .disabled := by
  obtain ⟨store, stored, used, invalidated⟩ := table
  cases reflects with
  | disabled => exact iff_of_true rfl rfl
  | elastic | exact => exact iff_of_false Bool.false_ne_true nofun

def slotsOf (count : Nat) : MemoStrategy → Option Nat
  | .disabled => some 0
  | .elastic => some count
  | .exact => none

theorem Reflects.slotCount? (reflects : Reflects shift count history strategy table.store) :
    table.slotCount? = slotsOf count strategy := by
  obtain ⟨store, stored, used, invalidated⟩ := table
  cases reflects with
  | disabled | exact => rfl
  | elastic size => exact congrArg some size

theorem slotIndex_lt (pos : Nat) (point : MemoId) (shift : Nat) (filled : 0 < count) :
    slotIndex pos point shift count < count :=
  Nat.mod_lt _ filled

theorem Reflects.slotIndex_inside (reflects : Reflects shift count history strategy table.store)
    (filled : 0 < count) {slots : Array (Option (MemoSlot τ))} {bits : Nat}
    (elastic : table.store = .elastic slots bits) (pos : Nat) (point : MemoId) :
    slotIndex pos point bits slots.size < slots.size := by
  rw [elastic] at reflects
  cases reflects with
  | elastic size =>
      rw [size]
      exact slotIndex_lt pos point shift filled

end Shape

theorem Recipe.reflects_after (recipe : Recipe) (requests : List (Request τ)) :
    Reflects recipe.shift recipe.count (recorded requests) recipe.strategy
      ((recipe.table : MemoTable τ).after requests).store := by
  have reflects := (Reflects.made (τ := τ) recipe).after requests
  rw [List.append_nil] at reflects
  exact reflects

/-! ### Options -/

section Choice

variable (options : Options) (points : Nat)

theorem Recipe.strategy_ofOptions :
    (ofOptions options points).strategy =
      if points = 0 ∨ (options.memo = .elastic ∧ options.slots = some 0) ∨
          (options.window = 0 ∧ (options.memo = .elastic → options.slots = none))
      then .disabled else options.memo := by
  obtain ⟨memo, window, slots, tree, unconsumed⟩ := options
  cases memo with
  | disabled | exact =>
      simp only [strategy, effective, reduceCtorEq, false_and, false_or, false_implies,
        and_true]
  | elastic =>
      cases slots with
      | none =>
          simp only [strategy, effective, reduceCtorEq, and_false, false_or, imp_self, and_true]
      | some slots =>
          simp only [strategy, effective, Option.some.injEq, true_and, reduceCtorEq, imp_false,
            not_true_eq_false, and_false, or_false]

theorem Recipe.strategy_eq_disabled :
    (ofOptions options points).strategy = .disabled ↔
      points = 0 ∨ options.memo = .disabled ∨ (options.memo = .elastic ∧ options.slots = some 0) ∨
        (options.window = 0 ∧ (options.memo = .elastic → options.slots = none)) := by
  rw [Recipe.strategy_ofOptions, ite_eq_left_iff, ← Decidable.or_iff_not_imp_left, or_assoc]
  exact or_congr_right or_comm

theorem Recipe.strategy_of_ne (on : (ofOptions options points).strategy ≠ .disabled) :
    (ofOptions options points).strategy = options.memo := by
  rw [Recipe.strategy_ofOptions] at on ⊢
  split at on
  · exact absurd rfl on
  · next off => rw [if_neg off]

theorem Recipe.count_ofOptions :
    (ofOptions options points).count =
      min Options.maxSlots (max 1 (options.slots.getD (options.window * points + 1))) := by
  rw [Nat.min_comm, Nat.max_comm]
  rfl

end Choice

/-! ### The result -/

/-- Options size a table, whatever is asked of it afterwards. It is off exactly without memo points,
without a strategy, with slots of zero, or with a window of zero that no slots replace. Else it is
unbounded if it keeps everything, and has as many slots as were asked for, but at least one and no more
than the greatest number. The window alone decides as long as it is not zero beside slots that replace
it. In every table of slots, however it was made, each key falls into one of them. -/
theorem table_sized_by_options (options : Options) (points : Nat) (requests : List (Request τ)) :
    let table : MemoTable τ := (MemoTable.ofOptions options points).after requests
    (table.isDisabled = true ↔
      points = 0 ∨ options.memo = .disabled ∨ (options.memo = .elastic ∧ options.slots = some 0) ∨
        (options.window = 0 ∧ (options.memo = .elastic → options.slots = none))) ∧
    (options.window ≠ 0 ∨ options.memo ≠ .elastic ∨ options.slots.getD 0 = 0 →
      (table.isDisabled = true ↔
        points = 0 ∨ options.memo = .disabled ∨ options.window = 0 ∨
          (options.memo = .elastic ∧ options.slots = some 0))) ∧
    (table.isDisabled = false →
      (options.memo = .exact → table.slotCount? = none) ∧
      (options.memo = .elastic → table.slotCount? =
        some (min Options.maxSlots (max 1 (options.slots.getD (options.window * points + 1)))))) ∧
    ∀ (recipe : Recipe) (slots : Array (Option (MemoSlot τ))) (shift : Nat),
      (recipe.table.after requests).store = .elastic slots shift →
      ∀ pos point, slotIndex pos point shift slots.size < slots.size := by
  intro table
  let recipe : Recipe := .ofOptions options points
  have reflects := Recipe.reflects_after (τ := τ) recipe requests
  have off : table.isDisabled = true ↔ recipe.strategy = .disabled := reflects.isDisabled
  have documented := off.trans (Recipe.strategy_eq_disabled options points)
  refine ⟨documented, fun ordinary => documented.trans ?_, fun on => ?_,
    fun other slots shift elastic => ?_⟩
  · cases slots : options.slots with
    | none => simp only [reduceCtorEq, and_false, false_or, or_false, implies_true, and_true]
    | some given =>
        rw [slots, Option.getD_some] at ordinary
        simp only [Option.some.injEq, reduceCtorEq, imp_false]
        rcases ordinary with window | strategy | rfl
        · simp only [window, false_and, or_false, false_or]
        · simp only [strategy, not_false_eq_true, false_and, and_true, false_or, or_false]
        · by_cases elastic : options.memo = .elastic
          · simp only [elastic, true_and, true_or, or_true]
          · simp only [elastic, not_false_eq_true, and_true, false_or, or_false]
  · have used : recipe.strategy = options.memo := by
      refine Recipe.strategy_of_ne options points fun disabled => ?_
      rw [off.mpr disabled] at on
      cases on
    have sized : table.slotCount? = slotsOf recipe.count recipe.strategy := reflects.slotCount?
    rw [used, Recipe.count_ofOptions] at sized
    constructor
    · intro exact
      rw [sized, exact]
      rfl
    · intro elastic
      rw [sized, elastic]
      rfl
  · exact (other.reflects_after requests).slotIndex_inside other.count_pos elastic

/-- A window whose product with the memo points does not fit in a word, and slots that replace a window
of zero. -/
theorem table_sized_by_options_wide :
    let options : Options := { Options.initial with window := 0x8000000000000000 }
    let bare : Options := { options with window := 0, slots := some 5 }
    let requests : List (Request Nat) := [.record 3 ⟨0⟩ ⟨false, 2, some 7, 0⟩, .lookup 3 ⟨1⟩ none]
    let wide := (MemoTable.ofOptions options 0x8000000000000000).after requests
    let replaced := (MemoTable.ofOptions bare 2).after requests
    wide.isDisabled = false ∧ wide.slotCount? = some 0x100000 ∧
      slotIndex 0xffffffffffffffff ⟨7⟩ 2 5 < 5 ∧
      replaced.isDisabled = false ∧ replaced.slotCount? = some 5 := by
  intro options bare requests wide replaced
  obtain ⟨_, ordinary, sized, inside⟩ :=
    table_sized_by_options options 0x8000000000000000 requests
  obtain ⟨off, _, replacing, _⟩ := table_sized_by_options bare 2 requests
  have on : wide.isDisabled = false := by
    refine Bool.eq_false_iff.mpr fun disabled => ?_
    have reason := (ordinary (.inl (by decide))).mp disabled
    revert reason
    decide
  have on' : replaced.isDisabled = false := by
    refine Bool.eq_false_iff.mpr fun disabled => ?_
    have reason := off.mp disabled
    revert reason
    decide
  have greatest : min Options.maxSlots (max 1 (options.slots.getD
      (options.window * 0x8000000000000000 + 1))) = 0x100000 := by decide +kernel
  exact ⟨on, ((sized on).2 rfl).trans (congrArg some greatest),
    inside (.ofOptions bare 2) _ _ rfl 0xffffffffffffffff ⟨7⟩, on', (replacing on').2 rfl⟩

/-- A window of zero does not turn memoization off where slots are given: what is recorded is answered,
though the window says that nothing is kept. -/
theorem zero_window_memoizes :
    let options : Options := { Options.initial with window := 0, slots := some 5 }
    let table : MemoTable Nat := .ofOptions options 2
    let entry : MemoEntry Nat := ⟨false, 3, some 7, 0⟩
    (Options.ofText "memo=elastic window=0 slots=5").toOption = some options ∧
      options.window = 0 ∧
      table.isDisabled = false ∧ table.slotCount? = some 5 ∧
      ((table.record 0 ⟨0⟩ entry).lookup 0 ⟨0⟩ none).1 = some entry := by
  refine ⟨?_, rfl, rfl, rfl, rfl⟩
  decide +kernel

end Packrat.MemoTable
