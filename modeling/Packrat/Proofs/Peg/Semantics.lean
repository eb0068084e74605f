/-
Parsing expressions and what they mean, apart from any machine. An expression at a position succeeds
at a later one or fails, and it may do neither. A derivation also yields the furthest position that
was looked at on the way, over all the branches that were given up.

A repetition ends at the first iteration that fails or consumes nothing.
-/

import Packrat.Input.Match

namespace Packrat.Peg

inductive Expr (ρ : Type) where
  | test (pattern : Pattern ByteSet Bytes)
  | seq (first second : Expr ρ)
  | choice (first second : Expr ρ)
  | option (body : Expr ρ)
  | star (body : Expr ρ)
  /-- Succeeds where the body fails, consuming nothing. -/
  | absent (body : Expr ρ)
  /-- Succeeds where the body does, consuming nothing. -/
  | ahead (body : Expr ρ)
  | call (rule : ρ)

variable {ρ : Type}

/-- From a position an expression succeeds at `result`, or fails where that is none, and takes the
cursor no further than `far`. -/
inductive Derives (input : Input) (rules : ρ → Expr ρ) :
    (e : Expr ρ) → (pos : Nat) → (result : Option Nat) → (far : Nat) → Prop
  | test {pattern : Pattern ByteSet Bytes} {pos length : Nat}
      (found : pattern.length? input pos = some length) :
      Derives input rules (.test pattern) pos (some (pos + length)) (pos + length)
  | testFail {pattern : Pattern ByteSet Bytes} {pos : Nat}
      (missing : pattern.length? input pos = none) :
      Derives input rules (.test pattern) pos none pos
  | seq {first second : Expr ρ} {pos middle far far' : Nat} {result : Option Nat}
      (succeeds : Derives input rules first pos (some middle) far)
      (rest : Derives input rules second middle result far') :
      Derives input rules (.seq first second) pos result (max far far')
  | seqFail {first second : Expr ρ} {pos far : Nat}
      (fails : Derives input rules first pos none far) :
      Derives input rules (.seq first second) pos none far
  | choiceFirst {first second : Expr ρ} {pos stop far : Nat}
      (succeeds : Derives input rules first pos (some stop) far) :
      Derives input rules (.choice first second) pos (some stop) far
  | choiceSecond {first second : Expr ρ} {pos far far' : Nat} {result : Option Nat}
      (fails : Derives input rules first pos none far)
      (other : Derives input rules second pos result far') :
      Derives input rules (.choice first second) pos result (max far far')
  | option {body : Expr ρ} {pos stop far : Nat}
      (succeeds : Derives input rules body pos (some stop) far) :
      Derives input rules (.option body) pos (some stop) far
  | optionNone {body : Expr ρ} {pos far : Nat}
      (fails : Derives input rules body pos none far) :
      Derives input rules (.option body) pos (some pos) far
  | starFail {body : Expr ρ} {pos far : Nat}
      (fails : Derives input rules body pos none far) :
      Derives input rules (.star body) pos (some pos) far
  | starIdle {body : Expr ρ} {pos far : Nat}
      (idles : Derives input rules body pos (some pos) far) :
      Derives input rules (.star body) pos (some pos) far
  | starMore {body : Expr ρ} {pos middle far far' : Nat} {result : Option Nat}
      (succeeds : Derives input rules body pos (some middle) far) (moves : middle ≠ pos)
      (more : Derives input rules (.star body) middle result far') :
      Derives input rules (.star body) pos result (max far far')
  | absent {body : Expr ρ} {pos far : Nat}
      (fails : Derives input rules body pos none far) :
      Derives input rules (.absent body) pos (some pos) far
  | absentFail {body : Expr ρ} {pos stop far : Nat}
      (succeeds : Derives input rules body pos (some stop) far) :
      Derives input rules (.absent body) pos none far
  | ahead {body : Expr ρ} {pos stop far : Nat}
      (succeeds : Derives input rules body pos (some stop) far) :
      Derives input rules (.ahead body) pos (some pos) far
  | aheadFail {body : Expr ρ} {pos far : Nat}
      (fails : Derives input rules body pos none far) :
      Derives input rules (.ahead body) pos none far
  | call {rule : ρ} {pos far : Nat} {result : Option Nat}
      (body : Derives input rules (rules rule) pos result far) :
      Derives input rules (.call rule) pos result far

namespace Derives

variable {input : Input} {rules : ρ → Expr ρ} {e : Expr ρ} {pos far : Nat} {result : Option Nat}

/-- An expression never moves the cursor back, and what it consumed was looked at. -/
theorem bounds (derives : Derives input rules e pos result far) :
    pos ≤ far ∧ ∀ stop, result = some stop → pos ≤ stop ∧ stop ≤ far := by
  induction derives with
  | test found =>
      refine ⟨Nat.le_add_right _ _, fun stop same => ?_⟩
      cases same
      exact ⟨Nat.le_add_right _ _, Nat.le_refl _⟩
  | testFail missing =>
      refine ⟨Nat.le_refl _, fun stop same => ?_⟩
      cases same
  | seq succeeds rest first second =>
      obtain ⟨within, inside⟩ := first
      have ⟨onward, before⟩ := inside _ rfl
      refine ⟨Nat.le_trans within (Nat.le_max_left _ _), fun stop same => ?_⟩
      have ⟨onward', before'⟩ := second.2 stop same
      exact ⟨Nat.le_trans onward onward', Nat.le_trans before' (Nat.le_max_right _ _)⟩
  | starMore succeeds moves more first second =>
      obtain ⟨within, inside⟩ := first
      have ⟨onward, before⟩ := inside _ rfl
      refine ⟨Nat.le_trans within (Nat.le_max_left _ _), fun stop same => ?_⟩
      have ⟨onward', before'⟩ := second.2 stop same
      exact ⟨Nat.le_trans onward onward', Nat.le_trans before' (Nat.le_max_right _ _)⟩
  | choiceSecond fails other first second =>
      refine ⟨Nat.le_trans first.1 (Nat.le_max_left _ _), fun stop same => ?_⟩
      have ⟨onward, before⟩ := second.2 stop same
      exact ⟨onward, Nat.le_trans before (Nat.le_max_right _ _)⟩
  | choiceFirst succeeds ih | option succeeds ih | call body ih => exact ih
  | seqFail fails ih | absentFail succeeds ih | aheadFail fails ih =>
      refine ⟨ih.1, fun stop same => ?_⟩
      cases same
  | optionNone fails ih | starFail fails ih | starIdle idles ih | absent fails ih
  | ahead succeeds ih =>
      refine ⟨ih.1, fun stop same => ?_⟩
      cases same
      exact ⟨Nat.le_refl _, ih.1⟩

theorem unique {result' : Option Nat} {far' : Nat}
    (derives : Derives input rules e pos result far)
    (derives' : Derives input rules e pos result' far') : result = result' ∧ far = far' := by
  induction derives generalizing result' far' with
  | test found =>
      cases derives' with
      | test found' => rw [found] at found'; cases found'; exact ⟨rfl, rfl⟩
      | testFail missing => rw [found] at missing; cases missing
  | testFail missing =>
      cases derives' with
      | test found => rw [missing] at found; cases found
      | testFail missing' => exact ⟨rfl, rfl⟩
  | seq succeeds rest first second =>
      cases derives' with
      | seq succeeds' rest' =>
          obtain ⟨same, rfl⟩ := first succeeds'
          cases same
          obtain ⟨rfl, rfl⟩ := second rest'
          exact ⟨rfl, rfl⟩
      | seqFail fails => cases (first fails).1
  | seqFail fails ih =>
      cases derives' with
      | seq succeeds rest => cases (ih succeeds).1
      | seqFail fails' => exact ⟨rfl, (ih fails').2⟩
  | choiceFirst succeeds ih =>
      cases derives' with
      | choiceFirst succeeds' => exact ih succeeds'
      | choiceSecond fails other => cases (ih fails).1
  | choiceSecond fails other first second =>
      cases derives' with
      | choiceFirst succeeds => cases (first succeeds).1
      | choiceSecond fails' other' =>
          obtain ⟨rfl, rfl⟩ := second other'
          exact ⟨rfl, by rw [(first fails').2]⟩
  | option succeeds ih =>
      cases derives' with
      | option succeeds' => exact ih succeeds'
      | optionNone fails => cases (ih fails).1
  | optionNone fails ih =>
      cases derives' with
      | option succeeds => cases (ih succeeds).1
      | optionNone fails' => exact ⟨rfl, (ih fails').2⟩
  | starFail fails ih =>
      cases derives' with
      | starFail fails' => exact ⟨rfl, (ih fails').2⟩
      | starIdle idles => cases (ih idles).1
      | starMore succeeds moves more => cases (ih succeeds).1
  | starIdle idles ih =>
      cases derives' with
      | starFail fails => cases (ih fails).1
      | starIdle idles' => exact ⟨rfl, (ih idles').2⟩
      | starMore succeeds moves more =>
          have same := (ih succeeds).1
          cases same
          exact absurd rfl moves
  | starMore succeeds moves more first second =>
      cases derives' with
      | starFail fails => cases (first fails).1
      | starIdle idles =>
          have same := (first idles).1
          cases same
          exact absurd rfl moves
      | starMore succeeds' moves' more' =>
          obtain ⟨same, rfl⟩ := first succeeds'
          cases same
          obtain ⟨rfl, rfl⟩ := second more'
          exact ⟨rfl, rfl⟩
  | absent fails ih =>
      cases derives' with
      | absent fails' => exact ⟨rfl, (ih fails').2⟩
      | absentFail succeeds => cases (ih succeeds).1
  | absentFail succeeds ih =>
      cases derives' with
      | absent fails => cases (ih fails).1
      | absentFail succeeds' => exact ⟨rfl, (ih succeeds').2⟩
  | ahead succeeds ih =>
      cases derives' with
      | ahead succeeds' => exact ⟨rfl, (ih succeeds').2⟩
      | aheadFail fails => cases (ih fails).1
  | aheadFail fails ih =>
      cases derives' with
      | ahead succeeds => cases (ih succeeds).1
      | aheadFail fails' => exact ⟨rfl, (ih fails').2⟩
  | call body ih =>
      cases derives' with
      | call body' => exact ih body'

end Derives

end Packrat.Peg
