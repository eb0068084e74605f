/-
Targets as numbers of 32 bits. The upper bit tells a label from a place, so a number stands for one
target and a target whose name leaves that bit free has one number. The labels and places that an
assembler hands out are of this kind.
-/

import Mathlib.Data.Nat.Bitwise
import Packrat.Code.Assembler

namespace Packrat

namespace Target

/-- The number of the place or label leaves the label bit free. -/
def Encodable : Target → Prop
  | .inst id => id.index < labelBit
  | .label name => name.index < labelBit

/-! ### The label bit -/

theorem and_labelBit_of_lt {n : Nat} (low : n < labelBit) : n &&& labelBit = 0 := by
  have free : n.testBit 31 = false := Nat.testBit_lt_two_pow low
  rw [show labelBit = 2 ^ 31 from rfl, Nat.and_two_pow, free]
  rfl

theorem and_labelBit_of_le {n : Nat} (high : labelBit ≤ n) (small : n < 0x100000000) :
    n &&& labelBit ≠ 0 := by
  have set : n.testBit 31 = true := Nat.testBit_of_two_pow_le_and_two_pow_add_one_gt high small
  rw [show labelBit = 2 ^ 31 from rfl, Nat.and_two_pow, set]
  decide

theorem or_labelBit {n : Nat} (low : n < labelBit) : n ||| labelBit = n + labelBit := by
  have sum := Nat.two_pow_add_eq_or_of_lt (i := 31) low 1
  rw [Nat.lor_comm, Nat.add_comm]
  exact sum.symm

theorem and_maxHandle (n : Nat) : n &&& maxHandle = n % labelBit :=
  Nat.and_two_pow_sub_one_eq_mod n 31

/-! ### Numbers of targets -/

theorem ofRaw_of_lt {n : Nat} (low : n < labelBit) : ofRaw n = .inst ⟨n⟩ :=
  if_pos (and_labelBit_of_lt low)

theorem ofRaw_of_le {n : Nat} (high : labelBit ≤ n) (small : n < 0x100000000) :
    ofRaw n = .label ⟨n - labelBit⟩ := by
  have rest : n % labelBit = n - labelBit := by
    rw [Nat.mod_eq_sub_mod high, Nat.mod_eq_of_lt]
    simp only [labelBit] at high ⊢
    omega
  rw [ofRaw, if_neg (and_labelBit_of_le high small), and_maxHandle, rest]

theorem raw_label {name : Label} (low : name.index < labelBit) :
    (label name).raw = name.index + labelBit :=
  or_labelBit low

theorem raw_lt {target : Target} (low : target.Encodable) : target.raw < 0x100000000 := by
  cases target with
  | inst id => exact Nat.lt_trans low (by decide)
  | label name =>
      rw [raw_label low]
      exact Nat.add_lt_add_right low labelBit

/-- A target is restored from its number. -/
theorem ofRaw_raw {target : Target} (low : target.Encodable) : ofRaw target.raw = target := by
  cases target with
  | inst id => exact ofRaw_of_lt low
  | label name =>
      have small := raw_lt low
      rw [raw_label low] at small ⊢
      rw [ofRaw_of_le (Nat.le_add_left _ _) small, Nat.add_sub_cancel]

/-- Every number of 32 bits is that of the target it stands for. -/
theorem raw_ofRaw {n : Nat} (small : n < 0x100000000) :
    (ofRaw n).raw = n ∧ (ofRaw n).Encodable := by
  rcases Nat.lt_or_ge n labelBit with low | high
  · rw [ofRaw_of_lt low]
    exact ⟨rfl, low⟩
  · have rest : n - labelBit < labelBit := by
      simp only [labelBit]
      omega
    rw [ofRaw_of_le high small, raw_label rest]
    exact ⟨Nat.sub_add_cancel high, rest⟩

end Target

/-! ### What an assembler hands out -/

namespace Assembler

variable {asm asm' : Assembler}

theorem nextHandle_lt {title : String} {count handle : Nat}
    (given : nextHandle title maxHandle count = .ok handle) : handle < Target.labelBit := by
  unfold nextHandle at given
  split at given
  · next room =>
      cases given
      exact Nat.lt_succ_of_le room
  · cases given

theorem encodable_label {label : Label} (done : asm.label = .ok (label, asm')) :
    (Target.label label).Encodable := by
  unfold Assembler.label at done
  split at done
  · next given =>
      cases done
      exact nextHandle_lt given
  · cases done

theorem encodable_nextId {id : InstId} (done : asm.nextId = .ok id) :
    (Target.inst id).Encodable := by
  unfold nextId at done
  split at done
  · next given =>
      cases done
      exact nextHandle_lt given
  · cases done

/-- With room for one more instruction behind it, an instruction is followed by that one. -/
theorem emit_of_room (op : Op Target) (room : asm.insts.size < maxHandle) :
    asm.emit op = .ok (⟨asm.insts.size⟩,
      { asm with insts := asm.insts.push ⟨op, .inst ⟨asm.insts.size + 1⟩⟩ }) := by
  have free : asm.insts.size ≤ maxHandle := Nat.le_of_lt room
  have next := Target.ofRaw_of_lt (Nat.succ_lt_succ room)
  simp only [emit, nextId, nextHandle, free, if_true, InstId.succ, next]

end Assembler

end Packrat
