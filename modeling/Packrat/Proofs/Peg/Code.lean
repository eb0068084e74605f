/-
The code of parsing expressions. Code stands at a place and goes on at its continuation where the
expression succeeds; where it fails the machine does. Nothing is said about where in the program the
instructions lie, about jumps between them, or about the rest of the program.

A rule may be called plainly, or at a memoized site that records its outcomes under a memo point and
skips the call where the outcome is known.
-/

import Packrat.Proofs.Machine.Unwinding
import Packrat.Proofs.Peg.Semantics

namespace Packrat.Peg

variable {ρ : Type}

/-- Where the bodies of the rules stand, and the rule that each memo point is for. -/
structure Layout (ρ : Type) where
  entry : ρ → InstId
  memoized : MemoId → Option ρ

def CallCode (program : Program) (layout : Layout ρ) (rule : ρ) (place k : InstId) : Prop :=
  ∃ target back name next, Meets program place (.control (.call target back name)) next ∧
    Leads program target (layout.entry rule) ∧ Leads program back k

def MemoCode (program : Program) (layout : Layout ρ) (rule : ρ) (place k : InstId) : Prop :=
  ∃ point info skip attempt failed call store next,
    layout.memoized point = some rule ∧ program.memoPoint? point = some info ∧
    info.stateful = false ∧
    Meets program place (.memo (.lookup point skip)) attempt ∧ Leads program skip k ∧
    Meets program attempt (.control (.alt failed)) call ∧
    CallCode program layout rule call store ∧
    Meets program store (.memo (.store point)) k ∧
    Meets program failed (.memo (.storeFailure point)) next

/-- The code of an expression stands at a place and goes on at `k`. -/
def ExprCode (program : Program) (layout : Layout ρ) : Expr ρ → (place k : InstId) → Prop
  | .test pattern, place, k =>
    ∃ operand, program.pattern? operand = some pattern ∧
      Meets program place (.test operand .once) k
  | .seq first second, place, k =>
    ∃ middle, ExprCode program layout first place middle ∧ ExprCode program layout second middle k
  | .choice first second, place, k =>
    ∃ other body done, Meets program place (.control (.alt other)) body ∧
      ExprCode program layout first body done ∧ Meets program done (.control .succ) k ∧
      ExprCode program layout second other k
  | .option e, place, k =>
    ∃ none body done, Meets program place (.control (.alt none)) body ∧
      ExprCode program layout e body done ∧ Meets program done (.control .succ) k ∧
      Leads program none k
  | .star e, place, k =>
    ∃ stop body again, Meets program place (.control (.alt stop)) body ∧
      ExprCode program layout e body again ∧ Meets program again (.control .step) body ∧
      Leads program stop k
  | .absent e, place, k =>
    ∃ absent body done stuck next, Meets program place (.control (.alt absent)) body ∧
      ExprCode program layout e body done ∧ Meets program done (.control .succ) stuck ∧
      Meets program stuck (.control .fail) next ∧ Leads program absent k
  | .ahead e, place, k =>
    ∃ body done, Meets program place (.control .pos) body ∧
      ExprCode program layout e body done ∧ Meets program done (.control .back) k
  | .call rule, place, k =>
    CallCode program layout rule place k ∨ MemoCode program layout rule place k

def RuleCode (program : Program) (layout : Layout ρ) (rules : ρ → Expr ρ) : Prop :=
  ∀ rule, ∃ done next, ExprCode program layout (rules rule) (layout.entry rule) done ∧
    Meets program done (.control .ret) next

end Packrat.Peg
