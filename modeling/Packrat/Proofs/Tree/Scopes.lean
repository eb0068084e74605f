/-
Nested scopes and committed tails. A child can be logged between the opening and the closing of a
scope, and is built when the whole log is read; or it is logged behind a mark and built at once. The
two give the same tree wherever the child stands, also where the intents around it open and close
scopes of their own.
-/

import Packrat.Proofs.Tree.Fold
import Packrat.Proofs.Tree.Growth
import Packrat.Proofs.Tree.Vacant

namespace Packrat

variable {σ τ : Type}

namespace Intent

/-! ### Balanced intents -/

inductive Balanced : List (Intent τ) → Prop
  | nil : Balanced []
  | single {intent : Intent τ} {rest : List (Intent τ)} (plain : intent.isScope = false)
      (balanced : Balanced rest) : Balanced (intent :: rest)
  | nested {inner rest : List (Intent τ)} (label : Symbol) (balanced : Balanced inner)
      (balanced' : Balanced rest) : Balanced (.push :: inner ++ .pop label :: rest)

/-- A scope opens in the same way whatever follows its first intent. -/
theorem opening_append {intents : List (Intent τ)} (filled : intents ≠ [])
    (more : List (Intent τ)) :
    Scope.opening (intents ++ more) = Scope.opening intents := by
  cases intents with
  | nil => exact absurd rfl filled
  | cons intent rest => rfl

/-- Balanced intents change the innermost scope only, and in a way that depends on nothing around
them. -/
theorem Balanced.build {intents : List (Intent τ)} (balanced : Balanced intents)
    (factory : TreeFactory σ τ) (scope : Scope τ) (state : σ) :
    ∃ scope' state', ∀ outer rest, build factory (intents ++ rest) scope outer state =
      build factory rest scope' outer state' := by
  induction balanced generalizing scope state with
  | nil => exact ⟨scope, state, fun outer rest => rfl⟩
  | @single intent _ plain _ ih =>
      obtain ⟨scope', state', follows⟩ :=
        ih (absorb factory scope state intent).1 (absorb factory scope state intent).2
      refine ⟨scope', state', fun outer rest => ?_⟩
      rw [List.cons_append, build_absorb factory plain]
      exact follows outer rest
  | @nested inner after label _ _ ihInner ihAfter =>
      have opens (rest : List (Intent τ)) :
          Scope.opening (inner ++ .pop label :: (after ++ rest)) =
            Scope.opening (inner ++ [.pop label]) := by
        cases inner <;> rfl
      obtain ⟨child, state₁, built⟩ := ihInner (Scope.opening (inner ++ [.pop label])) state
      obtain ⟨scope', state', follows⟩ :=
        ihAfter (scope.attach label (factory.make child.node state₁).1)
          (factory.make child.node state₁).2
      refine ⟨scope', state', fun outer rest => ?_⟩
      rw [List.cons_append, List.cons_append, List.append_assoc, List.cons_append, Intent.build,
        opens, built]
      exact follows outer rest

/-! ### Pure factories -/

section Pure

variable {factory : TreeFactory σ τ} {f : Node τ → τ} (computes : factory.Computes f)

include computes

theorem make_eq (node : Node τ) (state state' : σ) :
    (factory.make node state).1 = (factory.make node state').1 := by
  rw [computes, computes]

theorem absorb_eq (scope : Scope τ) (state state' : σ) (intent : Intent τ) :
    (absorb factory scope state intent).1 = (absorb factory scope state' intent).1 := by
  cases intent with
  | leftFold pos label =>
      simp only [absorb, make_eq computes scope.node state state']
  | link label child => cases child <;> rfl
  | begin | capture | tag | replace | push | pop => rfl

theorem closeAll_eq (scope : Scope τ) (outer : List (Scope τ)) (state state' : σ) :
    (closeAll factory scope state outer).1 = (closeAll factory scope state' outer).1 := by
  induction outer generalizing scope state state' with
  | nil => exact make_eq computes scope.node state state'
  | cons parent outer ih =>
      rw [closeAll, closeAll]
      dsimp only
      rw [make_eq computes scope.node state state']
      exact ih _ _ _

/-- What is read first does not tell apart two ways to go on that give the same node everywhere.
Which state the factory is in matters to neither. -/
theorem build_congr {rest rest' : List (Intent τ)}
    (opens : Scope.opening rest = Scope.opening rest')
    (same : ∀ scope outer state state', (build factory rest scope outer state).1.node =
      (build factory rest' scope outer state').1.node)
    (intents : List (Intent τ)) (scope : Scope τ) (outer : List (Scope τ)) (state state' : σ) :
    (build factory (intents ++ rest) scope outer state).1.node =
      (build factory (intents ++ rest') scope outer state').1.node := by
  induction intents generalizing scope outer state state' with
  | nil => exact same scope outer state state'
  | cons intent more ih =>
      cases shape : intent.isScope with
      | false =>
          rw [List.cons_append, List.cons_append, build_absorb factory shape, build_absorb factory shape,
            absorb_eq computes scope state state' intent]
          exact ih _ outer _ _
      | true =>
          cases intent with
          | begin | capture | tag | replace | leftFold | link => cases shape
          | push =>
              have inside : Scope.opening (more ++ rest) = Scope.opening (more ++ rest') := by
                cases more with
                | nil => exact opens
                | cons first more => rfl
              rw [List.cons_append, List.cons_append, build, build, inside]
              exact ih _ (scope :: outer) state state'
          | pop label =>
              have made := make_eq computes scope.node state state'
              cases outer with
              | nil => exact made
              | cons parent outer =>
                  rw [List.cons_append, List.cons_append, build, build]
                  dsimp only
                  rw [made]
                  exact ih _ outer _ _

theorem build_eq (intents : List (Intent τ)) (scope : Scope τ) (outer : List (Scope τ))
    (state state' : σ) : (build factory intents scope outer state).1.node =
      (build factory intents scope outer state').1.node := by
  have ends (scope : Scope τ) (outer : List (Scope τ)) (state state' : σ) :
      (build factory [] scope outer state).1.node = (build factory [] scope outer state').1.node :=
    closeAll_eq computes scope outer state state'
  have same := build_congr computes rfl ends intents scope outer state state'
  rw [List.append_nil] at same
  exact same

/-- A balanced scope and the node that its intents amount to are attached alike. -/
theorem build_scope {inner : List (Intent τ)} (balanced : Balanced inner) (filled : inner ≠ [])
    (label : Symbol) (rest : List (Intent τ)) (scope : Scope τ) (outer : List (Scope τ))
    (state state' before : σ) :
    (build factory (.push :: inner ++ .pop label :: rest) scope outer state).1.node =
      (build factory (.link label (some (construct factory inner before).1.node) :: rest) scope
        outer state').1.node := by
  obtain ⟨child, left, builds⟩ := balanced.build factory (Scope.opening inner) state
  have whole : (construct factory inner before).1.node = (factory.make child.node left).1 := by
    have read := builds [] []
    rw [List.append_nil] at read
    rw [construct, build_eq computes inner _ [] before state, read]
    rfl
  rw [List.cons_append, build, opening_append filled, builds, build, build, whole]
  exact build_eq computes rest _ outer _ _

end Pure

end Intent

namespace TreeLog

/-- A node may be built at once or left to be built when the whole log is read. Take a log that
begins with a node and has a balanced scope, not empty, anywhere after that; before and after the
scope may stand anything, scopes that are open or closed there included. Logging what is in the scope
behind a mark of any log, and building it from there, attaches a node. The log that has this node as
a link in place of the scope is read to the same tree. -/
theorem scope_agrees_with_link {factory : TreeFactory σ τ} {f : Node τ → τ}
    (computes : factory.Computes f) {begins : Nat} {label : Symbol}
    {earlier inner later : List (Intent τ)} (balanced : Intent.Balanced inner) (filled : inner ≠ [])
    {nested : TreeLog τ}
    (written : nested.intents = .begin begins :: earlier ++ .push :: inner ++ .pop label :: later)
    {marked grown : TreeLog τ} {live : List (Nat × Intent τ)} {free : List Nat}
    (layout : marked.Layout live free) (enabled : marked.enabled = true)
    (grows : marked.Extends grown inner) (before : σ) :
    let built := (grown.commit factory marked.mark label before).1
    ∃ node, built.latestLinked = some node ∧ marked.Extends built [.link label (some node)] ∧
      ∀ linked : TreeLog τ,
        linked.intents = .begin begins :: earlier ++ .link label (some node) :: later →
        ∀ start stop state state', (nested.parseResult factory start stop state).1 =
          (linked.parseResult factory start stop state').1 := by
  intro built
  let node := (Intent.construct factory inner before).1.node
  have attaches : nodeOf factory inner before = some node := by
    obtain ⟨first, rest, rfl⟩ := List.exists_cons_of_ne_nil filled
    rfl
  have latest : built.latestLinked = some node := by
    rw [latestLinked_commit (grows.1.trans enabled), grows.intentsAfter layout, attaches]
  have adds := grows.commit enabled factory label before
  rw [attaches] at adds
  refine ⟨node, latest, adds, fun linked replaced start stop state state' => ?_⟩
  have opens : Scope.opening (.push :: inner ++ .pop label :: later) =
      Scope.opening (.link label (some node) :: later) := rfl
  have inside (scope : Scope τ) (outer : List (Scope τ)) (state state' : σ) :=
    Intent.build_scope computes balanced filled label later scope outer state state' before
  have read := Intent.build_congr computes opens inside earlier (.fresh begins) [] state state'
  change (Intent.result factory start stop nested.intents state).1 =
    (Intent.result factory start stop linked.intents state').1
  rw [written, replaced]
  simp only [List.append_assoc, List.cons_append] at read ⊢
  exact read

/-- The scope stands in another one that is open before it and closed once too often after it, and
the factory counts the nodes that it makes. -/
theorem scope_agrees_with_link_unbalanced :
    let factory : TreeFactory Nat Tree := ⟨fun node made => (.ofNode node, made + 1)⟩
    let inner : List (Intent Tree) := [.push, .begin 1, .pop ⟨2⟩, .capture 3]
    let later : List (Intent Tree) := [.pop ⟨5⟩, .capture 6, .pop ⟨7⟩, .tag ⟨8⟩]
    let log (intents : List (Intent Tree)) : TreeLog Tree := intents.foldl append (new true)
    let child : Tree := .node .null 0 3 [(⟨2⟩, .node .null 1 1 [] none)] none
    ((log inner).commit factory startMark ⟨4⟩ 0).1.latestLinked = some child ∧
      ((log (.begin 0 :: .push :: .push :: inner ++ .pop ⟨4⟩ :: later)).parseResult
          factory 0 9 0).1 =
        ((log (.begin 0 :: .push :: .link ⟨4⟩ (some child) :: later)).parseResult
          factory 0 9 5).1 := by
  intro factory inner later log child
  have computes : factory.Computes Tree.ofNode := fun _ _ => rfl
  have balanced : Intent.Balanced inner := .nested ⟨2⟩ (.single rfl .nil) (.single rfl .nil)
  have grows : Extends (new true) (log inner) inner :=
    (((Extends.append _ _).trans (.append _ _)).trans (.append _ _)).trans (.append _ _)
  have known : ((log inner).commit factory startMark ⟨4⟩ 0).1.latestLinked = some child := by
    decide +kernel
  let nested := log (.begin 0 :: .push :: .push :: inner ++ .pop ⟨4⟩ :: later)
  let linked := log (.begin 0 :: .push :: .link ⟨4⟩ (some child) :: later)
  have written : nested.intents =
      .begin 0 :: [.push] ++ .push :: inner ++ .pop ⟨4⟩ :: later := by decide +kernel
  have replaced : linked.intents = .begin 0 :: [.push] ++ .link ⟨4⟩ (some child) :: later := by
    decide +kernel
  obtain ⟨node, latest, _, same⟩ := scope_agrees_with_link computes balanced (List.cons_ne_nil _ _)
    written (layout_new true) rfl grows 0
  cases known.symm.trans latest
  exact ⟨known, same linked replaced 0 9 0 5⟩

end TreeLog

end Packrat
