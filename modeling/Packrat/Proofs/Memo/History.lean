/-
What a table answers, from what was recorded in it. A table that keeps everything answers with the
newest record for the key that is fresh; a table of slots knows the last record of each slot and
nothing else, so it answers with that same record or not at all. What it is asked for in between
changes nothing.
-/

import Packrat.Proofs.Memo.Alike

namespace Packrat.MemoTable

variable {τ : Type}

/-! ### Histories -/

inductive Request (τ : Type) where
  | record (pos : Nat) (point : MemoId) (entry : MemoEntry τ)
  | lookup (pos : Nat) (point : MemoId) (state : Option Nat)
deriving DecidableEq, Repr

def answer (table : MemoTable τ) : Request τ → MemoTable τ
  | .record pos point entry => table.record pos point entry
  | .lookup pos point state => (table.lookup pos point state).2

def after (table : MemoTable τ) (requests : List (Request τ)) : MemoTable τ :=
  requests.foldl answer table

def answers (table : MemoTable τ) : List (Request τ) → List (Option (MemoEntry τ))
  | [] => []
  | .record pos point entry :: rest => (table.record pos point entry).answers rest
  | .lookup pos point state :: rest =>
    let (found, table) := table.lookup pos point state
    found :: table.answers rest

def Request.slot? : Request τ → Option (MemoSlot τ)
  | .record pos point entry => some ⟨pos, point, entry⟩
  | .lookup _ _ _ => none

def recorded (requests : List (Request τ)) : List (MemoSlot τ) :=
  (requests.filterMap Request.slot?).reverse

def newest (history : List (MemoSlot τ)) (pos : Nat) (point : MemoId) (state : Option Nat) :
    Option (MemoEntry τ) :=
  (history.find? fun slot =>
    slot.pos = pos ∧ slot.point = point ∧ slot.entry.isFresh state).map MemoSlot.entry

def lastInto (shift count index : Nat) (history : List (MemoSlot τ)) : Option (MemoSlot τ) :=
  history.find? fun slot => slotIndex slot.pos slot.point shift count = index

/-! ### Ways to make a table -/

inductive Recipe where
  | new (strategy : MemoStrategy) (window points : Nat)
  | elastic (capacity points : Nat)
  | ofOptions (options : Options) (points : Nat)
deriving DecidableEq, Repr

namespace Recipe

def table : Recipe → MemoTable τ
  | new strategy window points => .new strategy window points
  | elastic capacity points => .elastic capacity points
  | ofOptions options points => .ofOptions options points

def points : Recipe → Nat
  | new _ _ points => points
  | elastic _ points => points
  | ofOptions _ points => points

/-- The strategy of a table that asks for a strategy: none without memo points or with a size of
zero. -/
def effective (strategy : MemoStrategy) (size points : Nat) : MemoStrategy :=
  if points = 0 ∨ size = 0 then .disabled else strategy

def strategy : Recipe → MemoStrategy
  | new strategy window points => effective strategy window points
  | elastic _ _ => .elastic
  | ofOptions options points =>
    match options.memo, options.slots with
    | .elastic, some slots => effective .elastic slots points
    | strategy, _ => effective strategy options.window points

def capacity : Recipe → Nat
  | new _ window points => window * points + 1
  | elastic capacity _ => capacity
  | ofOptions options points => options.slots.getD (options.window * points + 1)

def count (recipe : Recipe) : Nat := min (max recipe.capacity 1) Options.maxSlots

def shift (recipe : Recipe) : Nat := bitLength recipe.points

def blank (recipe : Recipe) : MemoStore τ :=
  match recipe.strategy with
  | .disabled => .disabled
  | .elastic => .elastic (Array.replicate recipe.count none) recipe.shift
  | .exact => .exact ∅

theorem count_pos (recipe : Recipe) : 0 < recipe.count := by
  unfold count Options.maxSlots
  omega

/-- What does not fit in a word is above the greatest number of slots, so saturation is lost in the
clamp. -/
theorem clamp_saturate (size : Nat) :
    min (max (saturate (saturate size + 1)) 1) Options.maxSlots =
      min (max (size + 1) 1) Options.maxSlots := by
  unfold saturate Options.maxSlots
  omega

/-- Where the size follows from the window, the table is a new one for that window. -/
theorem new_eq (recipe : Recipe) (strategy : MemoStrategy) {window points : Nat}
    (follows : recipe.strategy = effective strategy window points)
    (sized : strategy = .elastic → recipe.capacity = window * points + 1 ∧ recipe.points = points) :
    (MemoTable.new strategy window points : MemoTable τ) = ofStore recipe.blank := by
  unfold MemoTable.new blank
  rw [follows, effective]
  by_cases nothing : points = 0 ∨ window = 0
  · simp only [nothing, if_true]
  · simp only [nothing, if_false]
    cases strategy with
    | disabled | exact => rfl
    | elastic =>
        obtain ⟨capacity, same⟩ := sized rfl
        simp only [MemoTable.elastic, clamp_saturate, count, shift, capacity, same]

theorem table_eq (recipe : Recipe) : (recipe.table : MemoTable τ) = ofStore recipe.blank := by
  cases recipe with
  | new strategy window points =>
      exact new_eq (.new strategy window points) strategy rfl fun _ => ⟨rfl, rfl⟩
  | elastic capacity points => rfl
  | ofOptions options points =>
      obtain ⟨memo, window, slots, tree, unconsumed⟩ := options
      cases memo with
      | disabled => exact new_eq (.ofOptions _ points) .disabled rfl fun elastic => by cases elastic
      | exact => exact new_eq (.ofOptions _ points) .exact rfl fun elastic => by cases elastic
      | elastic =>
          rcases slots with _ | _ | slots
          · exact new_eq (.ofOptions _ points) .elastic rfl fun _ => ⟨rfl, rfl⟩
          · simp only [table, MemoTable.ofOptions, blank, strategy, effective, or_true, if_true]
          · simp only [table, MemoTable.ofOptions, blank, strategy, effective, Nat.succ_ne_zero,
              or_false]
            by_cases nothing : points = 0
            · simp only [nothing, if_true]
            · simp only [nothing, if_false]
              rfl

end Recipe

/-! ### What a table knows -/

/-- The entries of a table are what is left of a history under a strategy, with `count` slots where
they are bounded. -/
inductive Reflects (shift count : Nat) (history : List (MemoSlot τ)) :
    MemoStrategy → MemoStore τ → Prop
  | disabled : Reflects shift count history .disabled .disabled
  | elastic {slots : Array (Option (MemoSlot τ))} (size : slots.size = count)
      (contents : ∀ index, index < count →
        slots[index]? = some (lastInto shift count index history)) :
      Reflects shift count history .elastic (.elastic slots shift)
  | exact {entries : Std.HashMap Nat (List (MemoId × MemoEntry τ))}
      (contents : ∀ pos, entries.getD pos [] =
        (history.filter fun slot => slot.pos = pos).map fun slot => (slot.point, slot.entry)) :
      Reflects shift count history .exact (.exact entries)

namespace Reflects

variable {shift count : Nat} {history : List (MemoSlot τ)} {strategy : MemoStrategy}
  {table : MemoTable τ}

/-- A new table has nothing. -/
theorem made (recipe : Recipe) : Reflects recipe.shift recipe.count ([] : List (MemoSlot τ))
    recipe.strategy recipe.table.store := by
  rw [recipe.table_eq]
  unfold Recipe.blank
  cases recipe.strategy with
  | disabled => exact .disabled
  | exact => exact .exact fun pos => Std.HashMap.getD_empty
  | elastic =>
      refine .elastic Array.size_replicate fun index within => ?_
      rw [Array.getElem?_replicate, if_pos within]
      rfl

/-- A record is the newest one of its position and the last one of its slot. -/
theorem record (reflects : Reflects shift count history strategy table.store) (pos : Nat)
    (point : MemoId) (entry : MemoEntry τ) :
    Reflects shift count (⟨pos, point, entry⟩ :: history) strategy
      (table.record pos point entry).store := by
  obtain ⟨store, stored, used, invalidated⟩ := table
  cases reflects with
  | disabled => exact .disabled
  | @elastic slots size contents =>
      refine .elastic (Array.size_setIfInBounds.trans size) fun index within => ?_
      rw [size, Array.getElem?_setIfInBounds, size, lastInto, List.find?_cons]
      by_cases here : slotIndex pos point shift count = index
      · rw [if_pos here, here, if_pos within]
        simp only [decide_true]
      · rw [if_neg here, contents index within]
        simp only [here, decide_false]
        rfl
  | @exact entries contents =>
      refine .exact fun other => ?_
      rw [Std.HashMap.getD_insert, List.filter_cons]
      by_cases here : pos = other
      · subst here
        simp only [beq_self_eq_true, if_true, decide_true, List.map_cons, contents]
      · simp only [beq_iff_eq, here, if_false, decide_false, Bool.false_eq_true, contents]

theorem lookup (reflects : Reflects shift count history strategy table.store) (pos : Nat)
    (point : MemoId) (state : Option Nat) :
    Reflects shift count history strategy (table.lookup pos point state).2.store :=
  reflects

theorem after (reflects : Reflects shift count history strategy table.store)
    (requests : List (Request τ)) :
    Reflects shift count (recorded requests ++ history) strategy (table.after requests).store := by
  induction requests generalizing table history with
  | nil => exact reflects
  | cons request rest ih =>
      cases request with
      | record pos point entry =>
          have more := ih (reflects.record pos point entry)
          rw [recorded, List.filterMap_cons, Request.slot?, List.reverse_cons, List.append_assoc]
          exact more
      | lookup pos point state => exact ih (reflects.lookup pos point state)

end Reflects

/-! ### What a table answers -/

theorem firstFresh_eq_find? (point : MemoId) (state : Option Nat)
    (entries : List (MemoId × MemoEntry τ)) (stale : Nat) :
    (firstFresh point state stale entries).1 =
      (entries.find? fun named => named.1 = point ∧ named.2.isFresh state).map Prod.snd := by
  induction entries generalizing stale with
  | nil => rfl
  | cons head older ih =>
      obtain ⟨other, entry⟩ := head
      rw [firstFresh, List.find?_cons]
      by_cases named : other = point
      · by_cases fresh : entry.isFresh state = true
        · simp only [named, fresh, and_self, decide_true, if_true, Option.map_some]
        · simp only [named, fresh, and_false, decide_false, if_true, Bool.false_eq_true, if_false]
          exact ih (stale + 1)
      · simp only [named, false_and, decide_false, if_false]
        exact ih stale

/-- Among the records of a position, the newest fresh one for a memo point is the newest of all. -/
theorem newest_eq (history : List (MemoSlot τ)) (pos : Nat) (point : MemoId) (state : Option Nat)
    (stale : Nat) :
    (firstFresh point state stale ((history.filter fun slot => slot.pos = pos).map fun slot =>
      (slot.point, slot.entry))).1 = newest history pos point state := by
  rw [firstFresh_eq_find?, List.find?_map, List.find?_filter, newest, Option.map_map]
  simp only [Function.comp_def, Bool.decide_and, Bool.decide_eq_true]

/-- The last record of a slot is the newest one for its key, if it is fresh. -/
theorem newest_of_lastInto {shift count pos : Nat} {point : MemoId} {state : Option Nat}
    {history : List (MemoSlot τ)} {slot : MemoSlot τ}
    (last : lastInto shift count (slotIndex pos point shift count) history = some slot)
    (answers : slot.pos = pos ∧ slot.point = point ∧ slot.entry.isFresh state) :
    newest history pos point state = some slot.entry := by
  obtain ⟨_, later, earlier, split, others⟩ := List.find?_eq_some_iff_append.mp last
  have found : history.find? (fun slot =>
      slot.pos = pos ∧ slot.point = point ∧ slot.entry.isFresh state) = some slot := by
    refine List.find?_eq_some_iff_append.mpr ⟨decide_eq_true answers, later, earlier, split, ?_⟩
    intro other member
    have elsewhere := others other member
    rw [Bool.not_eq_true', decide_eq_false_iff_not] at elsewhere ⊢
    rintro ⟨rfl, rfl, _⟩
    exact elsewhere rfl
  rw [newest, found]
  rfl

/-- What a history amounts to under a strategy, with `count` slots where they are bounded. -/
def expected (shift count : Nat) (history : List (MemoSlot τ)) (pos : Nat) (point : MemoId)
    (state : Option Nat) : MemoStrategy → Option (MemoEntry τ)
  | .disabled => none
  | .elastic =>
    match lastInto shift count (slotIndex pos point shift count) history with
    | some slot =>
      if slot.pos = pos ∧ slot.point = point ∧ slot.entry.isFresh state then some slot.entry
      else none
    | none => none
  | .exact => newest history pos point state

theorem Reflects.find {shift count : Nat} {history : List (MemoSlot τ)} {strategy : MemoStrategy}
    {table : MemoTable τ} (reflects : Reflects shift count history strategy table.store)
    (slots : 0 < count) (pos : Nat) (point : MemoId) (state : Option Nat) :
    (table.find pos point state).1 = expected shift count history pos point state strategy := by
  obtain ⟨store, stored, used, invalidated⟩ := table
  cases reflects with
  | disabled => rfl
  | @exact entries contents =>
      change (firstFresh point state 0 (entries.getD pos [])).1 = _
      rw [contents pos]
      exact newest_eq history pos point state 0
  | elastic size contents =>
      have inside : slotIndex pos point shift count < count := Nat.mod_lt _ slots
      rw [find_elastic, size, contents _ inside, expected]
      cases lastInto shift count (slotIndex pos point shift count) history with
      | none => rfl
      | some slot =>
          dsimp only [slotAnswer]
          by_cases named : slot.pos = pos ∧ slot.point = point
          · by_cases fresh : slot.entry.isFresh state = true
            · simp only [named, fresh, and_self, if_true]
            · simp only [named, fresh, and_self, and_false, if_true, Bool.false_eq_true, if_false]
          · rw [if_neg named, if_neg fun all => named ⟨all.1, all.2.1⟩]

/-- What is not forgotten is answered as if nothing had been. -/
theorem expected_cases (shift count : Nat) (history : List (MemoSlot τ)) (pos : Nat)
    (point : MemoId) (state : Option Nat) (strategy : MemoStrategy) :
    expected shift count history pos point state strategy = none ∨
      expected shift count history pos point state strategy = newest history pos point state := by
  cases strategy with
  | disabled => exact .inl rfl
  | exact => exact .inr rfl
  | elastic =>
      rw [expected]
      cases last : lastInto shift count (slotIndex pos point shift count) history with
      | none => exact .inl rfl
      | some slot =>
          dsimp only
          by_cases answers : slot.pos = pos ∧ slot.point = point ∧ slot.entry.isFresh state
          · rw [if_pos answers, newest_of_lastInto last answers]
            exact .inr rfl
          · rw [if_neg answers]
            exact .inl rfl

theorem expected_elastic {shift count pos : Nat} {history : List (MemoSlot τ)} {point : MemoId}
    {state : Option Nat} {entry : MemoEntry τ} :
    expected shift count history pos point state .elastic = some entry ↔
      ∃ slot, lastInto shift count (slotIndex pos point shift count) history = some slot ∧
        slot.pos = pos ∧ slot.point = point ∧ slot.entry.isFresh state = true ∧
        slot.entry = entry := by
  rw [expected]
  cases lastInto shift count (slotIndex pos point shift count) history with
  | none =>
      constructor
      · intro impossible
        cases impossible
      · rintro ⟨slot, impossible, _⟩
        cases impossible
  | some slot =>
      dsimp only
      by_cases answers : slot.pos = pos ∧ slot.point = point ∧ slot.entry.isFresh state
      · rw [if_pos answers, Option.some.injEq]
        constructor
        · rintro rfl
          exact ⟨slot, rfl, answers.1, answers.2.1, answers.2.2, rfl⟩
        · rintro ⟨other, same, _, _, _, content⟩
          cases same
          exact content
      · rw [if_neg answers]
        constructor
        · intro impossible
          cases impossible
        · rintro ⟨other, same, at_pos, named, fresh, _⟩
          cases same
          exact (answers ⟨at_pos, named, fresh⟩).elim

/-! ### Counters -/

/-- Every record is counted unless nothing is kept, and every lookup that finds an entry is. -/
theorem counters_after {shift count : Nat} {history : List (MemoSlot τ)} {strategy : MemoStrategy}
    {table : MemoTable τ} (reflects : Reflects shift count history strategy table.store)
    (requests : List (Request τ)) :
    (table.after requests).stored =
        table.stored + (if strategy = .disabled then 0 else (recorded requests).length) ∧
      (table.after requests).used =
        table.used + (table.answers requests).countP Option.isSome := by
  induction requests generalizing table history with
  | nil =>
      refine ⟨?_, rfl⟩
      simp only [after, List.foldl_nil, recorded, List.filterMap_nil, List.reverse_nil,
        List.length_nil, ite_self, Nat.add_zero]
  | cons request rest ih =>
      cases request with
      | lookup pos point state =>
          obtain ⟨stored, used⟩ := ih (reflects.lookup pos point state)
          have hit : (table.lookup pos point state).2.used =
              table.used + (if (table.lookup pos point state).1.isSome then 1 else 0) := rfl
          refine ⟨stored, used.trans ?_⟩
          rw [answers, List.countP_cons, hit]
          omega
      | record pos point entry =>
          obtain ⟨stored, used⟩ := ih (reflects.record pos point entry)
          have one : recorded (.record pos point entry :: rest) =
              recorded rest ++ [⟨pos, point, entry⟩] := by
            rw [recorded, List.filterMap_cons, Request.slot?, List.reverse_cons, recorded]
          have added : (table.record pos point entry).stored =
                table.stored + (if strategy = .disabled then 0 else 1) ∧
              (table.record pos point entry).used = table.used := by
            obtain ⟨store, stored, used, invalidated⟩ := table
            cases reflects <;> exact ⟨rfl, rfl⟩
          rw [added.1] at stored
          rw [added.2] at used
          refine ⟨stored.trans ?_, used⟩
          rw [one, List.length_append, List.length_singleton]
          split <;> omega

/-! ### The result -/

/-- A table answers from what was recorded in it, whatever it is asked for in between. One that
keeps everything answers with the newest fresh record for the key, and has none only where there is
none. One with slots answers with that same record or not at all: exactly while the last record of
its slot is for the key and fresh. So what is found among slots, however few, is found where
everything is kept. -/
theorem answers_from_history (recipe : Recipe) (requests : List (Request τ)) (pos : Nat)
    (point : MemoId) (state : Option Nat) :
    let table : MemoTable τ := recipe.table.after requests
    let found := (table.lookup pos point state).1
    let history := recorded requests
    (recipe.strategy = .exact → found = newest history pos point state) ∧
    (recipe.strategy = .elastic →
      (found = none ∨ found = newest history pos point state) ∧
      ∀ entry, found = some entry ↔
        ∃ slot, lastInto recipe.shift recipe.count
            (slotIndex pos point recipe.shift recipe.count) history = some slot ∧
          slot.pos = pos ∧ slot.point = point ∧ slot.entry.isFresh state = true ∧
          slot.entry = entry) ∧
    (recipe.strategy = .disabled → found = none) ∧
    (∀ full : Recipe, full.strategy = .exact → ∀ entry, found = some entry →
      ((full.table.after requests).lookup pos point state).1 = some entry) ∧
    table.stored = (if recipe.strategy = .disabled then 0 else history.length) ∧
    table.used = ((recipe.table : MemoTable τ).answers requests).countP Option.isSome := by
  intro table found history
  have answered (other : Recipe) :
      (((other.table : MemoTable τ).after requests).lookup pos point state).1 =
        expected other.shift other.count history pos point state other.strategy := by
    have reflects := (Reflects.made (τ := τ) other).after requests
    rw [List.append_nil] at reflects
    exact reflects.find other.count_pos pos point state
  have found_eq : found = expected recipe.shift recipe.count history pos point state
      recipe.strategy := answered recipe
  obtain ⟨stored, used⟩ := counters_after (Reflects.made (τ := τ) recipe) requests
  have unused : (recipe.table : MemoTable τ).stored = 0 ∧
      (recipe.table : MemoTable τ).used = 0 := by
    rw [recipe.table_eq]
    exact ⟨rfl, rfl⟩
  rw [unused.1, Nat.zero_add] at stored
  rw [unused.2, Nat.zero_add] at used
  refine ⟨fun exact => ?_, fun elastic => ⟨?_, fun entry => ?_⟩, fun disabled => ?_,
    fun full keeps entry known => ?_, stored, used⟩
  · rw [found_eq, exact]
    rfl
  · rw [found_eq]
    exact expected_cases _ _ history pos point state recipe.strategy
  · rw [found_eq, elastic]
    exact expected_elastic
  · rw [found_eq, disabled]
    rfl
  · rw [answered full, keeps]
    rw [found_eq] at known
    rcases expected_cases recipe.shift recipe.count history pos point state recipe.strategy with
      nothing | same
    · rw [nothing] at known
      cases known
    · rw [same] at known
      exact known

/-- Two memo points that share the only slot: the later record displaces the earlier one, which a
table that keeps everything still has. -/
def sharedSlot : List (Request Nat) :=
  [.record 3 ⟨0⟩ ⟨false, 2, some 7, 0⟩, .lookup 3 ⟨0⟩ none, .record 5 ⟨1⟩ ⟨true, 0, none, 4⟩]

theorem answers_from_history_displaced :
    let narrow := (Recipe.elastic 1 2).table.after sharedSlot
    let full := (Recipe.new .exact 1 2).table.after sharedSlot
    (narrow.lookup 3 ⟨0⟩ none).1 = none ∧
      (full.lookup 3 ⟨0⟩ none).1 = some ⟨false, 2, some 7, 0⟩ ∧
      (narrow.lookup 5 ⟨1⟩ (some 4)).1 = some ⟨true, 0, none, 4⟩ ∧
      narrow.stored = 2 ∧ narrow.used = 1 := by
  obtain ⟨_, first, _, _, stored, used⟩ :=
    answers_from_history (.elastic 1 2) sharedSlot 3 ⟨0⟩ none
  obtain ⟨kept, _⟩ := answers_from_history (.new .exact 1 2) sharedSlot 3 ⟨0⟩ none
  obtain ⟨_, second, _⟩ := answers_from_history (.elastic 1 2) sharedSlot 5 ⟨1⟩ (some 4)
  refine ⟨?_, kept rfl, ((second rfl).2 _).mpr ⟨_, rfl, rfl, rfl, rfl, rfl⟩, stored, used⟩
  rcases (first rfl).1 with none | same
  · exact none
  · obtain ⟨slot, last, here, _⟩ := ((first rfl).2 _).mp same
    cases last
    cases here

end Packrat.MemoTable
