/-
The calls of rules in an evaluation. An evaluation that has an outcome enters no rule again at the
position of a call of that rule that is still open, because its derivation would then contain
itself; so it calls a rule at one position only where the call is over and its outcome could be
kept.
-/

import Packrat.Proofs.Input.Match
import Packrat.Proofs.Peg.Semantics

namespace Packrat.Peg

variable {ρ : Type}

/-- Evaluating an expression at a position calls a rule at a position, itself or in the rules that
it calls. -/
inductive Calls (input : Input) (rules : ρ → Expr ρ) :
    (e : Expr ρ) → (pos : Nat) → (rule : ρ) → (entry : Nat) → Prop
  | here {rule : ρ} {pos : Nat} : Calls input rules (.call rule) pos rule pos
  | inside {rule called : ρ} {pos entry : Nat}
      (body : Calls input rules (rules rule) pos called entry) :
      Calls input rules (.call rule) pos called entry
  | seqFirst {first second : Expr ρ} {pos entry : Nat} {called : ρ}
      (before : Calls input rules first pos called entry) :
      Calls input rules (.seq first second) pos called entry
  | seqSecond {first second : Expr ρ} {pos middle far entry : Nat} {called : ρ}
      (succeeds : Derives input rules first pos (some middle) far)
      (after : Calls input rules second middle called entry) :
      Calls input rules (.seq first second) pos called entry
  | choiceFirst {first second : Expr ρ} {pos entry : Nat} {called : ρ}
      (before : Calls input rules first pos called entry) :
      Calls input rules (.choice first second) pos called entry
  | choiceSecond {first second : Expr ρ} {pos far entry : Nat} {called : ρ}
      (fails : Derives input rules first pos none far)
      (after : Calls input rules second pos called entry) :
      Calls input rules (.choice first second) pos called entry
  | option {body : Expr ρ} {pos entry : Nat} {called : ρ}
      (inner : Calls input rules body pos called entry) :
      Calls input rules (.option body) pos called entry
  | star {body : Expr ρ} {pos entry : Nat} {called : ρ}
      (inner : Calls input rules body pos called entry) :
      Calls input rules (.star body) pos called entry
  | starMore {body : Expr ρ} {pos middle far entry : Nat} {called : ρ}
      (succeeds : Derives input rules body pos (some middle) far) (moves : middle ≠ pos)
      (after : Calls input rules (.star body) middle called entry) :
      Calls input rules (.star body) pos called entry
  | absent {body : Expr ρ} {pos entry : Nat} {called : ρ}
      (inner : Calls input rules body pos called entry) :
      Calls input rules (.absent body) pos called entry
  | ahead {body : Expr ρ} {pos entry : Nat} {called : ρ}
      (inner : Calls input rules body pos called entry) :
      Calls input rules (.ahead body) pos called entry

variable {input : Input} {rules : ρ → Expr ρ} {e : Expr ρ} {pos far entry : Nat}
  {result : Option Nat} {rule : ρ}

/-- No call in an evaluation with an outcome leads to a call of the same rule at the same position.
The induction is on the derivation; at a call of the rule itself the hypothesis about its body is
about the very call that would come back. -/
theorem Derives.not_reentered (derives : Derives input rules e pos result far)
    (calls : Calls input rules e pos rule entry) :
    ¬ Calls input rules (rules rule) entry rule entry := by
  induction derives with
  | test found => cases calls
  | testFail missing => cases calls
  | seq succeeds rest first second =>
      cases calls with
      | seqFirst before => exact first before
      | seqSecond succeeds' after =>
          obtain ⟨same, _⟩ := succeeds.unique succeeds'
          cases same
          exact second after
  | seqFail fails ih =>
      cases calls with
      | seqFirst before => exact ih before
      | seqSecond succeeds after => cases (fails.unique succeeds).1
  | choiceFirst succeeds ih =>
      cases calls with
      | choiceFirst before => exact ih before
      | choiceSecond fails after => cases (succeeds.unique fails).1
  | choiceSecond fails other first second =>
      cases calls with
      | choiceFirst before => exact first before
      | choiceSecond fails' after => exact second after
  | option succeeds ih | optionNone fails ih =>
      cases calls with
      | option inner => exact ih inner
  | starFail fails ih =>
      cases calls with
      | star inner => exact ih inner
      | starMore succeeds moves after => cases (fails.unique succeeds).1
  | starIdle idles ih =>
      cases calls with
      | star inner => exact ih inner
      | starMore succeeds moves after =>
          have same := (idles.unique succeeds).1
          cases same
          exact absurd rfl moves
  | starMore succeeds moves more first second =>
      cases calls with
      | star inner => exact first inner
      | starMore succeeds' moves' after =>
          obtain ⟨same, _⟩ := succeeds.unique succeeds'
          cases same
          exact second after
  | absent fails ih | absentFail succeeds ih =>
      cases calls with
      | absent inner => exact ih inner
  | ahead succeeds ih | aheadFail fails ih =>
      cases calls with
      | ahead inner => exact ih inner
  | call body ih =>
      cases calls with
      | here => exact fun again => ih again again
      | inside inner => exact ih inner

/-! ### Positions -/

theorem Derives.within (derives : Derives input rules e pos result far) (start : pos ≤ input.size) :
    ∀ stop, result = some stop → stop ≤ input.size := by
  induction derives with
  | test found =>
      intro stop same
      cases same
      exact Pattern.length?_within found
  | testFail missing | seqFail fails ih | absentFail succeeds ih | aheadFail fails ih =>
      intro stop same
      cases same
  | seq succeeds rest first second | starMore succeeds moves rest first second =>
      exact second (first start _ rfl)
  | choiceSecond fails other first second => exact second start
  | choiceFirst succeeds ih | option succeeds ih | call body ih => exact ih start
  | optionNone fails ih | starFail fails ih | starIdle idles ih | absent fails ih
  | ahead succeeds ih =>
      intro stop same
      cases same
      exact start

theorem Calls.within (calls : Calls input rules e pos rule entry) (start : pos ≤ input.size) :
    entry ≤ input.size := by
  induction calls with
  | here => exact start
  | seqSecond succeeds after ih | starMore succeeds moves after ih =>
      exact ih (succeeds.within start _ rfl)
  | inside body ih | seqFirst before ih | choiceFirst before ih | choiceSecond fails after ih
  | option inner ih | star inner ih | absent inner ih | ahead inner ih => exact ih start

end Packrat.Peg
