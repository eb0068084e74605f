/-
The code of parsing expressions that build trees, laid out as the code of plain ones is. A labelled call
of a rule may stand at a memoized site, which attaches the node of a known outcome in place of the call.
-/

import Packrat.Proofs.Peg.Code
import Packrat.Proofs.Tree.Growth
import Packrat.Proofs.TreePeg.Semantics

namespace Packrat.TreePeg

open Peg (Layout CallCode)

variable {ρ σ τ : Type}

/-- The action that an operation stands for in a program; none for a scope or a checkpoint, and where
a literal is not in the program. -/
def actionOf? (program : Program) : TreeOp → Option Action
  | .node shift => some (.node shift)
  | .close shift name value => (Machine.literalValue? program value).map (.close shift name)
  | .tag name => some (.tag name)
  | .replace value => (program.literal? value).map .replace
  | .fold shift label => some (.fold shift label)
  | _ => none

def SiteCode (program : Program) (layout : Layout ρ) (label : Symbol) (rule : ρ)
    (place k : InstId) : Prop :=
  ∃ point info skip attempt failed start call emit store next,
    layout.memoized point = some rule ∧ program.memoPoint? point = some info ∧
    info.stateful = false ∧
    Meets program place (.memo (.treeLookup point label skip)) attempt ∧ Leads program skip k ∧
    Meets program attempt (.control (.alt failed)) start ∧
    Meets program start (.tree .checkpoint) call ∧ CallCode program layout rule call emit ∧
    Meets program emit (.tree (.emit label)) store ∧
    Meets program store (.memo (.treeStore point)) k ∧
    Meets program failed (.memo (.storeFailure point)) next

def TreeCode (program : Program) (layout : Layout ρ) : Expr ρ → (place k : InstId) → Prop
  | .test pattern policy, place, k =>
    ∃ operand, program.pattern? operand = some pattern ∧ Meets program place (.test operand policy) k
  | .act action, place, k =>
    ∃ op, actionOf? program op = some action ∧ Meets program place (.tree op) k
  | .seq first second, place, k =>
    ∃ middle, TreeCode program layout first place middle ∧ TreeCode program layout second middle k
  | .choice first second, place, k =>
    ∃ other body done, Meets program place (.control (.alt other)) body ∧
      TreeCode program layout first body done ∧ Meets program done (.control .succ) k ∧
      TreeCode program layout second other k
  | .option e, place, k =>
    ∃ none body done, Meets program place (.control (.alt none)) body ∧
      TreeCode program layout e body done ∧ Meets program done (.control .succ) k ∧
      Leads program none k
  | .star e, place, k =>
    ∃ stop body again, Meets program place (.control (.alt stop)) body ∧
      TreeCode program layout e body again ∧ Meets program again (.control .step) body ∧
      Leads program stop k
  | .absent e, place, k =>
    ∃ absent body done stuck next, Meets program place (.control (.alt absent)) body ∧
      TreeCode program layout e body done ∧ Meets program done (.control .succ) stuck ∧
      Meets program stuck (.control .fail) next ∧ Leads program absent k
  | .call rule, place, k => CallCode program layout rule place k
  | .link label e, place, k =>
    (∃ body emit, Meets program place (.tree .checkpoint) body ∧
      TreeCode program layout e body emit ∧ Meets program emit (.tree (.emit label)) k) ∨
    ∃ rule, e = .call rule ∧ SiteCode program layout label rule place k

def RuleCode (program : Program) (layout : Layout ρ) (rules : ρ → Expr ρ) : Prop :=
  ∀ rule, ∃ done next, TreeCode program layout (rules rule) (layout.entry rule) done ∧
    Meets program done (.control .ret) next

/-! ### What the operations do -/

def logAll (log : TreeLog τ) (intents : List (Intent τ)) : TreeLog τ :=
  intents.foldl TreeLog.append log

theorem extends_logAll (log : TreeLog τ) (intents : List (Intent τ)) :
    log.Extends (logAll log intents) (if log.enabled then intents else []) := by
  induction intents generalizing log with
  | nil =>
      rw [ite_self]
      exact .refl log
  | cons intent rest ih =>
      have first := TreeLog.Extends.append log intent
      have whole := first.trans (ih (log.append intent))
      rw [first.1] at whole
      cases enabled : log.enabled with
      | true => rw [enabled] at whole; exact whole
      | false => rw [enabled] at whole; exact whole

theorem exec_action {task : Task σ τ} {m : Machine σ τ} {op : TreeOp} {action : Action}
    (stands : actionOf? task.program op = some action) {intents : List (Intent τ)}
    (logs : action.intents? m.pos = some intents) (place next : InstId) :
    m.exec task place ⟨.tree op, next⟩ = .goto next (m.logged fun log => logAll log intents) := by
  cases op with
  | node shift =>
      cases stands
      obtain ⟨pos, shifted, rfl⟩ := Option.map_eq_some_iff.mp logs
      simp only [Machine.exec, Machine.treeStep, Machine.logAt, shifted]
      rfl
  | close shift name value =>
      obtain ⟨bytes, resolved, rfl⟩ := Option.map_eq_some_iff.mp stands
      obtain ⟨pos, shifted, rfl⟩ := Option.map_eq_some_iff.mp logs
      have closed : (fun log : TreeLog τ => Machine.closeNode log pos name bytes) = fun log =>
          logAll log (.capture pos :: (if name.isNull then [] else [.tag name]) ++
            (bytes.map .replace).toList) := by
        funext log
        unfold Machine.closeNode logAll
        cases name.isNull <;> cases bytes <;> rfl
      simp only [Machine.exec, Machine.treeStep, shifted, resolved, closed]
  | tag name =>
      cases stands
      cases logs
      rfl
  | replace value =>
      obtain ⟨bytes, resolved, rfl⟩ := Option.map_eq_some_iff.mp stands
      cases logs
      simp only [Machine.exec, Machine.treeStep, resolved]
      rfl
  | fold shift label =>
      cases stands
      obtain ⟨pos, shifted, rfl⟩ := Option.map_eq_some_iff.mp logs
      simp only [Machine.exec, Machine.treeStep, Machine.logAt, shifted]
      rfl
  | push | pop | checkpoint | emit => cases stands

theorem exec_action_fault {task : Task σ τ} {m : Machine σ τ} {op : TreeOp} {action : Action}
    (stands : actionOf? task.program op = some action) (lost : action.intents? (τ := τ) m.pos = none)
    (place next : InstId) : ∃ fault,
      m.exec task place ⟨.tree op, next⟩ = .halt (.fault fault) m := by
  cases op with
  | node shift =>
      cases stands
      have shifted := Option.map_eq_none_iff.mp lost
      refine ⟨.cursorUnderflow ⟨place, .tree (.node shift)⟩, ?_⟩
      simp only [Machine.exec, Machine.treeStep, Machine.logAt, shifted]
  | fold shift label =>
      cases stands
      have shifted := Option.map_eq_none_iff.mp lost
      refine ⟨.cursorUnderflow ⟨place, .tree (.fold shift label)⟩, ?_⟩
      simp only [Machine.exec, Machine.treeStep, Machine.logAt, shifted]
  | close shift name value =>
      obtain ⟨bytes, resolved, rfl⟩ := Option.map_eq_some_iff.mp stands
      have shifted := Option.map_eq_none_iff.mp lost
      refine ⟨.cursorUnderflow ⟨place, .tree (.close shift name value)⟩, ?_⟩
      simp only [Machine.exec, Machine.treeStep, shifted, resolved]
  | tag name => cases stands; cases lost
  | replace value =>
      obtain ⟨bytes, resolved, rfl⟩ := Option.map_eq_some_iff.mp stands
      cases lost
  | push | pop | checkpoint | emit => cases stands

theorem exec_test {task : Task σ τ} {m : Machine σ τ} {operand : Pattern SetId LitId}
    {pattern : Pattern ByteSet Bytes} {policy : Policy} {stop : Nat}
    (resolved : task.program.pattern? operand = some pattern)
    (found : policy.stop? task.input pattern m.pos = some stop) (place next : InstId) :
    m.exec task place ⟨.test operand policy, next⟩ = .goto next { m with pos := stop } := by
  simp only [Machine.exec, resolved]
  cases policy with
  | once =>
      obtain ⟨length, consumed, rfl⟩ := Option.map_eq_some_iff.mp found
      simp only [Machine.test, consumed, Machine.advance]
  | absent =>
      cases consumed : pattern.length? task.input m.pos with
      | none =>
          simp only [Policy.stop?, consumed] at found
          cases found
          simp only [Machine.test, consumed]
      | some length =>
          simp only [Policy.stop?, consumed] at found
          cases found
  | optional =>
      cases found
      cases consumed : pattern.length? task.input m.pos with
      | none => simp only [Machine.test, consumed, Option.getD_none, Nat.add_zero]
      | some length => simp only [Machine.test, consumed, Option.getD_some, Machine.advance]
  | many =>
      cases found
      rfl

theorem exec_test_fails {task : Task σ τ} {m : Machine σ τ} {operand : Pattern SetId LitId}
    {pattern : Pattern ByteSet Bytes} {policy : Policy}
    (resolved : task.program.pattern? operand = some pattern)
    (missing : policy.stop? task.input pattern m.pos = none) (place next : InstId) :
    m.exec task place ⟨.test operand policy, next⟩ = .fail m := by
  simp only [Machine.exec, resolved]
  cases policy with
  | once =>
      have consumed := Option.map_eq_none_iff.mp missing
      simp only [Machine.test, consumed]
  | absent =>
      cases consumed : pattern.length? task.input m.pos with
      | none =>
          simp only [Policy.stop?, consumed] at missing
          cases missing
      | some length => simp only [Machine.test, consumed]
  | optional | many => cases missing

end Packrat.TreePeg
