/-
Links that attach nothing. A lookup that finds an outcome without a node logs one, where evaluating the
rule logs nothing. While a node is read such a link has no effect; it can tell only by being there, in
what the first intent says and in whether there are intents at all.
-/

import Packrat.Proofs.Tree.Layout

namespace Packrat

namespace Intent

variable {σ τ : Type}

def isVacant : Intent τ → Bool
  | .link _ none => true
  | _ => false

def isScope : Intent τ → Bool
  | .push => true
  | .pop _ => true
  | _ => false

/-- An intent that opens no scope and closes none is read into the innermost one; only a left fold calls
the factory. -/
def absorb (factory : TreeFactory σ τ) (scope : Scope τ) (state : σ) : Intent τ → Scope τ × σ
  | .begin pos => (.fresh pos, state)
  | .capture pos => ({ scope with stop := pos }, state)
  | .tag name => ({ scope with tag := name }, state)
  | .replace value => ({ scope with value := some value }, state)
  | .leftFold pos label =>
    let (left, state) := factory.make scope.node state
    (⟨.null, pos, scope.stop, #[(label, left)], none⟩, state)
  | .link label (some child) => (scope.attach label child, state)
  | _ => (scope, state)

theorem build_absorb (factory : TreeFactory σ τ) {intent : Intent τ} (plain : intent.isScope = false)
    (rest : List (Intent τ)) (scope : Scope τ) (outer : List (Scope τ)) (state : σ) :
    build factory (intent :: rest) scope outer state =
      build factory rest (absorb factory scope state intent).1 outer
        (absorb factory scope state intent).2 := by
  cases intent with
  | push | pop => cases plain
  | link label child => cases child <;> rfl
  | begin | capture | tag | replace | leftFold => rfl

def solid (intents : List (Intent τ)) : List (Intent τ) :=
  intents.filter fun intent => !intent.isVacant

theorem solid_append (intents more : List (Intent τ)) :
    solid (intents ++ more) = solid intents ++ solid more :=
  List.filter_append _ _

theorem solid_eq {intents : List (Intent τ)} (full : ∀ intent ∈ intents, intent.isVacant = false) :
    solid intents = intents := by
  refine List.filter_eq_self.mpr fun intent member => ?_
  rw [full intent member]
  rfl

theorem solid_link (label : Symbol) (child : Option τ) :
    solid [.link label child] = TreeLog.attached label child := by
  cases child <;> rfl

def Flat (intents : List (Intent τ)) : Prop := ∀ intent ∈ intents, intent.isScope = false

theorem flat_nil : Flat ([] : List (Intent τ)) := fun intent member => by cases member

theorem Flat.cons {intent : Intent τ} {rest : List (Intent τ)} (head : intent.isScope = false)
    (flat : Flat rest) : Flat (intent :: rest) := by
  intro other member
  rcases List.mem_cons.mp member with rfl | member
  · exact head
  · exact flat other member

theorem Flat.append {intents more : List (Intent τ)} (flat : Flat intents) (flat' : Flat more) :
    Flat (intents ++ more) := by
  intro intent member
  rcases List.mem_append.mp member with first | second
  · exact flat intent first
  · exact flat' intent second

theorem flat_attached (label : Symbol) (child : Option τ) :
    Flat (TreeLog.attached label child) := by
  cases child with
  | none => exact flat_nil
  | some node => exact flat_nil.cons rfl

theorem flat_of_solid {intents : List (Intent τ)} (flat : Flat (solid intents)) : Flat intents := by
  intro intent member
  cases vacant : intent.isVacant with
  | true =>
      cases intent with
      | link => rfl
      | begin | capture | tag | replace | leftFold | push | pop => cases vacant
  | false =>
      refine flat intent (List.mem_filter.mpr ⟨member, ?_⟩)
      rw [vacant]
      rfl

/-- While a node is read, vacant links have no effect. -/
theorem build_solid (factory : TreeFactory σ τ) {intents : List (Intent τ)} (flat : Flat intents)
    (scope : Scope τ) (outer : List (Scope τ)) (state : σ) :
    build factory (solid intents) scope outer state = build factory intents scope outer state := by
  induction intents generalizing scope state with
  | nil => rfl
  | cons intent rest ih =>
      have flat' : Flat rest := fun other member => flat other (List.mem_cons_of_mem _ member)
      cases intent with
      | push | pop => cases flat _ List.mem_cons_self
      | link label child => cases child <;> exact ih flat' _ _
      | begin | capture | tag | replace | leftFold => exact ih flat' _ _

/-- The tree of a whole log is the same without its vacant links: it begins at an intent that begins a
node. -/
theorem result_solid (factory : TreeFactory σ τ) {intents : List (Intent τ)} (flat : Flat intents)
    (start stop : Nat) (state : σ) :
    result factory start stop (solid intents) state = result factory start stop intents state := by
  induction intents with
  | nil => rfl
  | cons intent rest ih =>
      have flat' : Flat rest := fun other member => flat other (List.mem_cons_of_mem _ member)
      have more := ih flat'
      cases intent with
      | push | pop => cases flat _ List.mem_cons_self
      | link label child => cases child <;> exact more
      | capture | tag | replace | leftFold => exact more
      | begin pos =>
          have same := build_solid factory flat (.fresh pos) [] state
          unfold result
          simp only [solid, List.filter_cons, isVacant, Bool.not_false, if_true, List.dropWhile_cons,
            isBegin, Bool.not_true, Bool.false_eq_true, if_false, construct, Scope.opening,
            Scope.position] at same ⊢
          rw [same]

end Intent

end Packrat
