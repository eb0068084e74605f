/-
A test never consumes more than is there: where it matches, what it consumes ends inside the input.
All matches of a pattern are of one width, and repeating it takes as many of them as there are.
-/

import Mathlib.Order.Bounds.Basic
import Packrat.Input.Match

namespace Packrat

theorem Input.byteAt?_within {input : Input} {pos : Nat} {b : UInt8}
    (found : input.byteAt? pos = some b) : pos + 1 ≤ input.size :=
  (Array.getElem?_eq_some_iff.mp found).1

theorem Input.matchesAt_within {input : Input} {pos : Nat} {bytes : Bytes}
    (found : input.matchesAt pos bytes = true) : pos + bytes.size ≤ input.size := by
  unfold Input.matchesAt at found
  obtain ⟨start, same⟩ := Bool.and_eq_true_iff.mp found
  have within : pos ≤ input.size := of_decide_eq_true start
  have sizes : (input.bytes.extract pos (pos + bytes.size)).size = bytes.size :=
    congrArg Array.size (eq_of_beq same)
  rw [Array.size_extract] at sizes
  unfold Input.size at within ⊢
  omega

namespace Pattern

variable {input : Input} {pattern : Pattern ByteSet Bytes} {pos length : Nat}

theorem length?_within (found : pattern.length? input pos = some length) :
    pos + length ≤ input.size := by
  cases pattern with
  | byte b =>
      simp only [Pattern.length?] at found
      split at found
      · next here =>
          cases found
          exact Input.byteAt?_within here
      · cases found
  | set members =>
      simp only [Pattern.length?] at found
      split at found
      · next b here =>
          split at found
          · cases found
            exact Input.byteAt?_within here
          · cases found
      · cases found
  | literal bytes =>
      simp only [Pattern.length?] at found
      split at found
      · next here =>
          cases found
          exact Input.matchesAt_within here
      · cases found
  | any =>
      simp only [Pattern.length?] at found
      split at found
      · next here =>
          cases found
          obtain ⟨b, here⟩ := Option.isSome_iff_exists.mp here
          exact Input.byteAt?_within here
      · cases found

/-- However often a pattern matches, the matches end inside the input if there are any. -/
theorem skip_within (input : Input) (pattern : Pattern ByteSet Bytes) (fuel pos : Nat) :
    ∃ total, pattern.skip input fuel pos = pos + total ∧
      (total = 0 ∨ pos + total ≤ input.size) := by
  induction fuel generalizing pos with
  | zero => exact ⟨0, rfl, .inl rfl⟩
  | succ fuel ih =>
      rw [Pattern.skip]
      split
      · next length found =>
          obtain ⟨total, same, within⟩ := ih (pos + (length + 1))
          have first := length?_within found
          refine ⟨length + 1 + total, ?_, .inr ?_⟩
          · rw [same]
            omega
          · omega
      · exact ⟨0, rfl, .inl rfl⟩

/-! ### Repetition -/

def width : Pattern ByteSet Bytes → Nat
  | .literal bytes => bytes.size
  | _ => 1

theorem length?_eq_width (found : pattern.length? input pos = some length) :
    length = pattern.width := by
  cases pattern with
  | byte b =>
      simp only [Pattern.length?] at found
      split at found
      · exact (Option.some.inj found).symm
      · cases found
  | set members =>
      simp only [Pattern.length?] at found
      split at found
      · split at found
        · exact (Option.some.inj found).symm
        · cases found
      · cases found
  | literal bytes =>
      simp only [Pattern.length?] at found
      split at found
      · exact (Option.some.inj found).symm
      · cases found
  | any =>
      simp only [Pattern.length?] at found
      split at found
      · exact (Option.some.inj found).symm
      · cases found

def Repeats (input : Input) (pattern : Pattern ByteSet Bytes) (pos count : Nat) : Prop :=
  ∀ earlier < count, (pattern.length? input (pos + earlier * pattern.width)).isSome = true

theorem repeats_zero : pattern.Repeats input pos 0 :=
  fun _ impossible => absurd impossible (Nat.not_lt_zero _)

theorem repeats_succ {count : Nat} : pattern.Repeats input pos (count + 1) ↔
    (pattern.length? input pos).isSome = true ∧
      pattern.Repeats input (pos + pattern.width) count := by
  have shifted (earlier : Nat) : pos + pattern.width + earlier * pattern.width =
      pos + (earlier + 1) * pattern.width := by
    rw [Nat.add_mul, Nat.one_mul]
    omega
  constructor
  · intro repeats
    constructor
    · have first := repeats 0 (Nat.zero_lt_succ count)
      rw [Nat.zero_mul, Nat.add_zero] at first
      exact first
    · intro earlier within
      rw [shifted]
      exact repeats (earlier + 1) (Nat.succ_lt_succ within)
  · rintro ⟨first, rest⟩ earlier within
    cases earlier with
    | zero =>
        rw [Nat.zero_mul, Nat.add_zero]
        exact first
    | succ earlier =>
        rw [← shifted]
        exact rest earlier (Nat.lt_of_succ_lt_succ within)

/-- A number of matches is all that there are, and none if they consume nothing. -/
def Exhausts (input : Input) (pattern : Pattern ByteSet Bytes) (pos count : Nat) : Prop :=
  (pattern.width = 0 → count = 0) ∧
    (0 < pattern.width → IsGreatest {n | pattern.Repeats input pos n} count)

theorem exhausts_zero (stops : ∀ rest, pattern.length? input pos ≠ some (rest + 1)) :
    pattern.Exhausts input pos 0 := by
  refine ⟨fun _ => rfl, fun wide => ⟨repeats_zero, ?_⟩⟩
  intro count repeats
  cases count with
  | zero => exact Nat.le_refl 0
  | succ count =>
      obtain ⟨length, found⟩ := Option.isSome_iff_exists.mp (repeats_succ.mp repeats).1
      obtain ⟨rest, more⟩ := Nat.exists_eq_succ_of_ne_zero (Nat.ne_of_gt wide)
      rw [length?_eq_width found, more] at found
      exact absurd found (stops rest)

theorem exhausts_succ {count : Nat} (found : pattern.length? input pos = some pattern.width)
    (wide : 0 < pattern.width) (rest : pattern.Exhausts input (pos + pattern.width) count) :
    pattern.Exhausts input pos (count + 1) := by
  obtain ⟨repeats, bound⟩ := rest.2 wide
  refine ⟨fun none => absurd none (Nat.ne_of_gt wide), fun _ => ⟨?_, ?_⟩⟩
  · exact repeats_succ.mpr ⟨by rw [found]; rfl, repeats⟩
  · intro other repeated
    cases other with
    | zero => exact Nat.zero_le _
    | succ other => exact Nat.succ_le_succ (bound (repeats_succ.mp repeated).2)

/-- Repeating stops behind all matches that there are. The induction is on the bytes that are left. -/
theorem skip_exhausts {fuel : Nat} (enough : input.size - pos ≤ fuel) :
    ∃ count, pattern.skip input fuel pos = pos + count * pattern.width ∧
      pattern.Exhausts input pos count := by
  induction fuel generalizing pos with
  | zero =>
      refine ⟨0, by rw [Nat.zero_mul]; rfl, exhausts_zero fun rest found => ?_⟩
      have within := length?_within found
      omega
  | succ fuel ih =>
      rw [Pattern.skip]
      split
      · next length found =>
          have same : length + 1 = pattern.width := length?_eq_width found
          have within : pos + (length + 1) ≤ input.size := length?_within found
          have left : input.size - (pos + (length + 1)) ≤ fuel := by omega
          obtain ⟨count, stop, exhausts⟩ := ih left
          have first : pattern.length? input pos = some pattern.width :=
            found.trans (congrArg some same)
          rw [same] at stop exhausts
          refine ⟨count + 1, ?_, exhausts_succ first (by omega) exhausts⟩
          rw [same, stop, Nat.add_mul, Nat.one_mul]
          omega
      · next stops =>
          exact ⟨0, by rw [Nat.zero_mul]; rfl, exhausts_zero stops⟩

end Pattern

end Packrat
