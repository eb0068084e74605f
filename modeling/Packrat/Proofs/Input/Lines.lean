/-
Lines and columns. Whatever searches the newlines, as long as it finds them all in their order, the
starts of the lines ascend, so the search for a position in them counts those that lie at or before
it, which is one more than the line ends before it. The last of them starts the line of the
position, and the distance of the position from it is the column. Lines and columns are in the order
of the positions, and no two positions have both in common.
-/

import Mathlib.Data.List.Sort
import Packrat.Input.Basic

namespace Packrat.Input

/-! ### The starts of the lines -/

/-- What searches the newlines makes no difference to an input, if it finds them. -/
theorem indexed_eq_ofBytes {search : ByteSearch} (finds : search.Finds) (bytes : Bytes) :
    indexed search bytes = ofBytes bytes := by
  have scan := ByteSearch.scan_finds
  have same : search 0x0a bytes = ByteSearch.scan 0x0a bytes :=
    (finds.ascending 0x0a bytes).eq_of_mem_iff (scan.ascending 0x0a bytes) fun pos =>
      (finds.exact 0x0a bytes pos).trans (scan.exact 0x0a bytes pos).symm
  rw [indexed, same]
  rfl

def newlinesBefore (input : Input) (pos : Nat) : Nat := (input.bytes.toList.take pos).count 0x0a

/-- The lines of an input start at its front and behind its newlines, and are in their order. -/
structure Lined (input : Input) : Prop where
  mem : ∀ start, start ∈ input.lineStarts.toList ↔
    start = 0 ∨ ∃ pos, input.byteAt? pos = some 0x0a ∧ start = pos + 1
  ascend : input.lineStarts.toList.Pairwise (· < ·)

theorem lined_indexed {search : ByteSearch} (finds : search.Finds) (bytes : Bytes) :
    (indexed search bytes).Lined := by
  constructor
  · intro start
    rw [indexed, List.mem_cons, List.mem_map]
    simp only [finds.exact, byteAt?, eq_comm]
  · refine .cons ?_ ((finds.ascending 0x0a bytes).map _ fun _ _ order => Nat.succ_lt_succ order)
    intro start member
    obtain ⟨pos, _, rfl⟩ := List.mem_map.mp member
    exact Nat.succ_pos pos

theorem countP_lt_succ (entries : List Nat) (bound : Nat) :
    entries.countP (· < bound + 1) = entries.countP (· < bound) + entries.count bound := by
  induction entries with
  | nil => rfl
  | cons entry rest ih =>
      simp only [List.countP_cons, List.count_cons, ih, decide_eq_true_eq, beq_iff_eq]
      split <;> split <;> split <;> omega

theorem newlinesBefore_succ (input : Input) (pos : Nat) :
    input.newlinesBefore (pos + 1) =
      input.newlinesBefore pos + if input.byteAt? pos = some 0x0a then 1 else 0 := by
  rw [newlinesBefore, newlinesBefore, byteAt?, List.take_add_one, List.count_append,
    Array.getElem?_toList]
  cases input.bytes[pos]? with
  | none => rfl
  | some b => simp [List.count_singleton]

variable {input : Input} {pos start : Nat}

/-- The starts at or before a position are as many as the line ends before it, and one more. -/
theorem Lined.countP (lined : input.Lined) (pos : Nat) :
    input.lineStarts.toList.countP (· ≤ pos) = 1 + input.newlinesBefore pos := by
  have once : input.lineStarts.toList.Nodup := lined.ascend.imp Nat.ne_of_lt
  have below (pos : Nat) : input.lineStarts.toList.countP (· < pos + 1) =
      1 + input.newlinesBefore pos := by
    induction pos with
    | zero =>
        have front : 0 ∈ input.lineStarts.toList := (lined.mem 0).mpr (.inl rfl)
        rw [countP_lt_succ, List.count_eq_one_of_mem once front, newlinesBefore, List.take_zero]
        simp
    | succ pos ih =>
        have newline : pos + 1 ∈ input.lineStarts.toList ↔ input.byteAt? pos = some 0x0a := by
          rw [lined.mem]
          simp
        rw [countP_lt_succ, ih, once.count, newlinesBefore_succ, Nat.add_assoc]
        simp only [newline]
  simpa only [Nat.lt_succ_iff] using below pos

/-! ### The search -/

theorem entry_le {starts : Array Nat} {i j first second : Nat}
    (ascend : starts.toList.Pairwise (· < ·)) (order : i ≤ j) (at_first : starts[i]? = some first)
    (at_second : starts[j]? = some second) : first ≤ second := by
  obtain ⟨in_first, rfl⟩ := Array.getElem?_eq_some_iff.mp at_first
  obtain ⟨in_second, rfl⟩ := Array.getElem?_eq_some_iff.mp at_second
  rcases Nat.lt_or_eq_of_le order with less | rfl
  · exact Nat.le_of_lt (List.pairwise_iff_getElem.mp ascend i j in_first in_second less)
  · exact Nat.le_refl _

/-- The first `count` entries, and no others, are at most `pos`. -/
structure Parts (starts : Array Nat) (pos count : Nat) : Prop where
  within : count ≤ starts.size
  before : ∀ i start, i < count → starts[i]? = some start → start ≤ pos
  behind : ∀ i start, count ≤ i → starts[i]? = some start → pos < start

/-- The search keeps that the entries below `low` are at most `pos` and those from `high` on are
not, until nothing is left between them. -/
theorem countAtMost_parts {starts : Array Nat} {fuel low high : Nat}
    (ascend : starts.toList.Pairwise (· < ·)) (enough : high - low ≤ fuel) (ordered : low ≤ high)
    (within : high ≤ starts.size)
    (before : ∀ i start, i < low → starts[i]? = some start → start ≤ pos)
    (behind : ∀ i start, high ≤ i → starts[i]? = some start → pos < start) :
    Parts starts pos (countAtMost starts pos fuel low high) := by
  induction fuel generalizing low high with
  | zero =>
      have met : high = low := by omega
      exact ⟨by rw [countAtMost]; omega, before, met ▸ behind⟩
  | succ fuel ih =>
      rw [countAtMost]
      split
      · next room =>
          have inside : (low + high) / 2 < starts.size := by omega
          have middle : starts[(low + high) / 2]? = some starts[(low + high) / 2] :=
            Array.getElem?_eq_getElem inside
          simp only [Array.getD_eq_getD_getElem?, middle, Option.getD_some]
          split
          · next small =>
              refine ih (by omega) (by omega) within ?_ behind
              intro i start order found
              exact Nat.le_trans (entry_le ascend (Nat.le_of_lt_succ order) found middle) small
          · next large =>
              refine ih (by omega) (by omega) (by omega) before ?_
              intro i start order found
              exact Nat.lt_of_lt_of_le (Nat.lt_of_not_le large) (entry_le ascend order middle found)
      · next closed =>
          have met : high = low := by omega
          exact ⟨by omega, before, met ▸ behind⟩

theorem Parts.countP {starts : Array Nat} {count : Nat} (parts : Parts starts pos count) :
    starts.toList.countP (· ≤ pos) = count := by
  have front : (starts.toList.take count).countP (· ≤ pos) = count := by
    have all : ∀ start ∈ starts.toList.take count, decide (start ≤ pos) = true := by
      intro start member
      obtain ⟨i, found⟩ := List.mem_iff_getElem?.mp member
      rw [List.getElem?_take] at found
      split at found
      · next order => exact decide_eq_true (parts.before i start order (by simpa using found))
      · cases found
    rw [List.countP_eq_length.mpr all, List.length_take, Array.length_toList,
      Nat.min_eq_left parts.within]
  have rest : (starts.toList.drop count).countP (· ≤ pos) = 0 := by
    refine List.countP_eq_zero.mpr fun start member small => ?_
    obtain ⟨i, found⟩ := List.mem_iff_getElem?.mp member
    rw [List.getElem?_drop] at found
    have large := parts.behind (count + i) start (Nat.le_add_right count i) (by simpa using found)
    exact Nat.not_lt.mpr (of_decide_eq_true small) large
  rw [← List.take_append_drop count starts.toList, List.countP_append, front, rest,
    Nat.add_zero]

/-- What the search counts for a position: its parts of the starts of the lines. -/
theorem Lined.parts (lined : input.Lined) (pos : Nat) :
    Parts input.lineStarts pos
      (countAtMost input.lineStarts pos input.lineStarts.size 0 input.lineStarts.size) := by
  refine countAtMost_parts lined.ascend (Nat.le_refl _) (Nat.zero_le _) (Nat.le_refl _) ?_ ?_
  · intro i start order
    exact absurd order (Nat.not_lt_zero i)
  · intro i start order found
    rw [Array.getElem?_eq_none order] at found
    cases found

/-! ### Lines and columns -/

/-- Behind the last line end before `pos`, or at the start of the input if there is none. -/
structure StartsLine (input : Input) (pos start : Nat) : Prop where
  before : start ≤ pos
  opens : start = 0 ∨ ∃ newline, input.byteAt? newline = some 0x0a ∧ start = newline + 1
  last : ∀ i, start ≤ i → i < pos → input.byteAt? i ≠ some 0x0a

/-- The search always counts the first start, which is taken off again: what is left are the line
ends before the position. -/
theorem Lined.lineIndex_succ (lined : input.Lined) (pos : Nat) :
    countAtMost input.lineStarts (min pos input.size) input.lineStarts.size 0
        input.lineStarts.size = input.lineIndex pos + 1 ∧
      input.lineIndex pos = input.newlinesBefore (min pos input.size) := by
  have counted := (lined.parts (min pos input.size)).countP
  rw [lined.countP] at counted
  rw [lineIndex, ← counted]
  omega

/-- The start of the line of a position is there, and it starts this line. -/
theorem Lined.lineStart (lined : input.Lined) (pos : Nat) :
    ∃ start, input.lineStarts[input.lineIndex pos]? = some start ∧
      input.StartsLine (min pos input.size) start := by
  have parts := lined.parts (min pos input.size)
  rw [(lined.lineIndex_succ pos).1] at parts
  have inside : input.lineIndex pos < input.lineStarts.size := parts.within
  have found := Array.getElem?_eq_getElem inside
  refine ⟨_, found, parts.before _ _ (Nat.lt_succ_self _) found, ?_, ?_⟩
  · exact (lined.mem _).mp (Array.getElem_mem_toList inside)
  · intro i from_start before_pos ends
    have member : i + 1 ∈ input.lineStarts.toList := (lined.mem _).mpr (.inr ⟨i, ends, rfl⟩)
    obtain ⟨j, at_j⟩ := List.mem_iff_getElem?.mp member
    rw [Array.getElem?_toList] at at_j
    have below : j < input.lineIndex pos + 1 := by
      refine Nat.lt_of_not_le fun above => ?_
      have large := parts.behind j (i + 1) above at_j
      omega
    have earlier := entry_le lined.ascend (Nat.le_of_lt_succ below) at_j found
    omega

theorem newlinesBefore_mono (input : Input) {pos pos' : Nat} (order : pos ≤ pos') :
    input.newlinesBefore pos ≤ input.newlinesBefore pos' :=
  (List.take_sublist_take_left order).count_le 0x0a

/-- The column of a position is one more than its distance from the start of its line. -/
theorem columnOf_eq (found : input.lineStarts[input.lineIndex pos]? = some start) :
    input.columnOf pos = min pos input.size - start + 1 := by
  rw [columnOf, Array.getD_eq_getD_getElem?, found, Option.getD_some]

/-- Lines and columns are in the order of the positions. -/
theorem Lined.mono (lined : input.Lined) {pos pos' : Nat} (order : pos < pos')
    (within : pos' ≤ input.size) :
    input.lineOf pos < input.lineOf pos' ∨
      input.lineOf pos = input.lineOf pos' ∧ input.columnOf pos < input.columnOf pos' := by
  obtain ⟨start, found, starts⟩ := lined.lineStart pos
  have column := columnOf_eq found
  have lines : input.lineIndex pos ≤ input.lineIndex pos' := by
    rw [(lined.lineIndex_succ pos).2, (lined.lineIndex_succ pos').2]
    exact input.newlinesBefore_mono (by omega)
  rcases Nat.lt_or_eq_of_le lines with less | same
  · exact .inl (Nat.succ_lt_succ less)
  · have found' : input.lineStarts[input.lineIndex pos']? = some start := same ▸ found
    have column' := columnOf_eq found'
    have before := starts.before
    refine .inr ⟨congrArg (· + 1) same, ?_⟩
    omega

/-- The line of a position is one more than the line ends before it, and its column is one more
than its distance from the start of the line; beyond the end, both are those of the end. The start
of the line is always found. Line and column ascend with the position and give it back. All this
holds whatever searches the newlines, if it finds them. -/
theorem lines_locate {search : ByteSearch} (finds : search.Finds) (bytes : Bytes) (pos : Nat) :
    let input := indexed search bytes
    let q := min pos bytes.size
    input.lineOf pos = 1 + input.newlinesBefore q ∧
      countAtMost input.lineStarts q input.lineStarts.size 0 input.lineStarts.size =
        input.lineIndex pos + 1 ∧
      (∃ start, input.StartsLine q start ∧
        input.lineStarts[input.lineOf pos - 1]? = some start ∧
        input.columnOf pos = q - start + 1 ∧ start + input.columnOf pos - 1 = q) ∧
      (∀ pos', pos < pos' → pos' ≤ bytes.size →
        input.lineOf pos < input.lineOf pos' ∨
          input.lineOf pos = input.lineOf pos' ∧ input.columnOf pos < input.columnOf pos') ∧
      (∀ pos', input.lineOf pos' = input.lineOf pos → input.columnOf pos' = input.columnOf pos →
        min pos' bytes.size = q) := by
  intro input q
  have lined : input.Lined := lined_indexed finds bytes
  have size : input.size = bytes.size := rfl
  obtain ⟨counted, line⟩ := lined.lineIndex_succ pos
  obtain ⟨start, found, starts⟩ := lined.lineStart pos
  have column := columnOf_eq found
  have before := starts.before
  refine ⟨?_, counted, ⟨start, starts, found, column, ?_⟩, ?_, ?_⟩
  · rw [lineOf, line, Nat.add_comm]
    rfl
  · omega
  · intro pos' order within
    exact lined.mono order within
  · intro pos' line_same column_same
    obtain ⟨start', found', starts'⟩ := lined.lineStart pos'
    have column' := columnOf_eq found'
    have before' := starts'.before
    have index_same : input.lineIndex pos' = input.lineIndex pos := Nat.succ.inj line_same
    rw [index_same, found] at found'
    cases found'
    omega

/-- An input that ends in two line ends, searched from the front: its end is in a third line that is
empty, and so is everything beyond. -/
theorem lines_locate_behind_newlines :
    let input := ofBytes #[0x61, 0x0a, 0x0a]
    ByteSearch.scan.Finds ∧ input.lineOf 9 = 3 ∧ input.columnOf 9 = 1 ∧
      (input.lineOf 1 < input.lineOf 3 ∨
        input.lineOf 1 = input.lineOf 3 ∧ input.columnOf 1 < input.columnOf 3) ∧
      min 3 input.size = min 9 input.size := by
  intro input
  obtain ⟨_, _, _, ascends, _⟩ := lines_locate ByteSearch.scan_finds #[0x61, 0x0a, 0x0a] 1
  obtain ⟨line, _, _, _, located⟩ := lines_locate ByteSearch.scan_finds #[0x61, 0x0a, 0x0a] 9
  exact ⟨ByteSearch.scan_finds, line, by decide, ascends 3 (by decide) (by decide),
    located 3 (by decide) (by decide)⟩

end Packrat.Input
