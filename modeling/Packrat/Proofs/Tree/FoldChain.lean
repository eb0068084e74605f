/-
Left folds. A log that begins a node and folds it to the left any number of times is read into nodes
that nest to the left: each fold makes the node so far the first child of the next one. What is logged
for one of them counts for this one alone, except that the end of a node is what was captured last
for it or before.

What stands in front of the last node that is begun outside nested scopes makes no difference.
-/

import Packrat.Proofs.Tree.Scopes

namespace Packrat

variable {σ τ : Type}

namespace Intent

/-! ### Nested scopes -/

def materialize (f : Node τ → τ) (inner : List (Intent τ)) : τ :=
  (construct (.ofFunction f) inner ()).1.node

theorem map_id (intent : Intent τ) : intent.map id = intent := by
  cases intent with
  | link label child => cases child <;> rfl
  | begin | capture | tag | replace | leftFold | push | pop => rfl

/-- Every factory that computes a function builds what the function makes of the nodes. -/
theorem construct_materialize {factory : TreeFactory σ τ} {f : Node τ → τ}
    (computes : factory.Computes f) (inner : List (Intent τ)) (state : σ) :
    (construct factory inner state).1.node = materialize f inner := by
  have carries : TreeFactory.Carries id (TreeFactory.ofFunction f) factory := by
    intro node _ state
    have same : node.map id = node := by
      obtain ⟨tag, start, stop, children, value⟩ := node
      simp only [Node.map, id, List.map_id']
    rw [same]
    exact computes node state
  have built := construct_map carries inner () state
  have same : inner.map (Intent.map id) = inner := by
    rw [List.map_congr_left fun intent _ => map_id intent, List.map_id']
  rw [same] at built
  exact built

end Intent

/-! ### What is logged for one node -/

inductive Part (τ : Type) where
  | capture (pos : Nat)
  | tag (name : Symbol)
  | replace (value : Bytes)
  | link (label : Symbol) (child : Option τ)
  | scope (inner : List (Intent τ)) (balanced : Intent.Balanced inner) (label : Symbol)

namespace Part

def intents : Part τ → List (Intent τ)
  | .capture pos => [.capture pos]
  | .tag name => [.tag name]
  | .replace value => [.replace value]
  | .link label child => [.link label child]
  | .scope inner _ label => .push :: inner ++ [.pop label]

@[simp] def capture? : Part τ → Option Nat
  | .capture pos => some pos
  | _ => none

@[simp] def tag? : Part τ → Option Symbol
  | .tag name => some name
  | _ => none

@[simp] def value? : Part τ → Option Bytes
  | .replace value => some value
  | _ => none

@[simp] def child? (f : Node τ → τ) : Part τ → Option (Symbol × τ)
  | .link label child => child.map fun child => (label, child)
  | .scope inner _ label => some (label, Intent.materialize f inner)
  | _ => none

/-- A node with the parts that are logged for it: the last tag, the last replacement and the last
position that is captured count, and the children follow one another. -/
def onto (f : Node τ → τ) (body : List (Part τ)) (node : Node τ) : Node τ where
  tag := (body.filterMap tag?).getLast?.getD node.tag
  start := node.start
  stop := (body.filterMap capture?).getLast?.getD node.stop
  children := node.children ++ body.filterMap (child? f)
  value := (body.filterMap value?).getLast?.or node.value

theorem onto_nil (f : Node τ → τ) (node : Node τ) : onto f [] node = node := by
  simp only [onto, List.filterMap_nil, List.getLast?_nil, Option.getD_none, List.append_nil,
    Option.none_or]

theorem onto_append (f : Node τ → τ) (body more : List (Part τ)) (node : Node τ) :
    onto f (body ++ more) node = onto f more (onto f body node) := by
  simp only [onto, List.filterMap_append, List.getLast?_append, Option.getD_or, Option.or_assoc,
    List.append_assoc]

end Part

/-- A node that is begun, and the left folds behind it with what is logged for each. -/
inductive FoldChain (τ : Type) where
  | first (pos : Nat) (body : List (Part τ))
  | fold (before : FoldChain τ) (pos : Nat) (label : Symbol) (body : List (Part τ))

namespace FoldChain

def intents : FoldChain τ → List (Intent τ)
  | .first pos body => .begin pos :: body.flatMap Part.intents
  | .fold before pos label body =>
    before.intents ++ .leftFold pos label :: body.flatMap Part.intents

def start : FoldChain τ → Nat
  | .first pos _ => pos
  | .fold before _ _ _ => before.start

def captures : FoldChain τ → List Nat
  | .first _ body => body.filterMap Part.capture?
  | .fold before _ _ body => before.captures ++ body.filterMap Part.capture?

def stop (chain : FoldChain τ) : Nat := chain.captures.getLast?.getD chain.start

/-- The last node. Its tag and its replacement are the last ones that are logged for it, and its first
child is what the function makes of the node before it. -/
def node (f : Node τ → τ) : FoldChain τ → Node τ
  | .first pos body =>
    { tag := (body.filterMap Part.tag?).getLast?.getD .null
      start := pos
      stop := (FoldChain.first pos body).stop
      children := body.filterMap (Part.child? f)
      value := (body.filterMap Part.value?).getLast? }
  | .fold before pos label body =>
    { tag := (body.filterMap Part.tag?).getLast?.getD .null
      start := pos
      stop := (FoldChain.fold before pos label body).stop
      children := (label, f (before.node f)) :: body.filterMap (Part.child? f)
      value := (body.filterMap Part.value?).getLast? }

def tree (f : Node τ → τ) (chain : FoldChain τ) : τ := f (chain.node f)

theorem intents_eq (chain : FoldChain τ) : ∃ rest, chain.intents = .begin chain.start :: rest := by
  induction chain with
  | first pos body => exact ⟨_, rfl⟩
  | fold before pos label body ih =>
      obtain ⟨rest, same⟩ := ih
      exact ⟨rest ++ .leftFold pos label :: body.flatMap Part.intents, by rw [intents, same]; rfl⟩

theorem stop_node (f : Node τ → τ) (chain : FoldChain τ) : (chain.node f).stop = chain.stop := by
  cases chain <;> rfl

end FoldChain

/-! ### Reading -/

namespace Intent

section Pure

variable {factory : TreeFactory σ τ} {f : Node τ → τ} (computes : factory.Computes f)

include computes

/-- A part changes the innermost scope only. -/
theorem build_part (part : Part τ) (scope : Scope τ) (state : σ) :
    ∃ scope' state', scope'.node = Part.onto f [part] scope.node ∧ ∀ outer rest,
      build factory (part.intents ++ rest) scope outer state =
        build factory rest scope' outer state' := by
  cases part with
  | capture pos =>
      exact ⟨{ scope with stop := pos }, state, by simp [Part.onto, Scope.node], fun _ _ => rfl⟩
  | tag name =>
      exact ⟨{ scope with tag := name }, state, by simp [Part.onto, Scope.node], fun _ _ => rfl⟩
  | replace value =>
      exact ⟨{ scope with value := some value }, state, by simp [Part.onto, Scope.node],
        fun _ _ => rfl⟩
  | link label child =>
      cases child with
      | none =>
          exact ⟨scope, state, by simp [Part.onto, Scope.node], fun _ _ => rfl⟩
      | some child =>
          exact ⟨scope.attach label child, state, by simp [Part.onto, Scope.node, Scope.attach],
            fun _ _ => rfl⟩
  | scope inner balanced label =>
      obtain ⟨child, state₁, builds⟩ := balanced.build factory (Scope.opening inner) state
      have made : (factory.make child.node state₁).1 = materialize f inner := by
        have whole := construct_materialize computes inner state
        have read := builds [] []
        rw [List.append_nil] at read
        rw [construct, read] at whole
        exact whole
      refine ⟨scope.attach label (materialize f inner), (factory.make child.node state₁).2, ?_,
        fun outer rest => ?_⟩
      · simp [Part.onto, Scope.node, Scope.attach]
      -- An empty scope opens by the `pop` that closes it, which has no position either.
      · have opens : Scope.opening (inner ++ .pop label :: rest) = Scope.opening inner := by
          cases inner <;> rfl
        rw [Part.intents, List.append_assoc, List.cons_append, build, List.singleton_append, opens,
          builds, build]
        dsimp only
        rw [made]

theorem build_body (body : List (Part τ)) (scope : Scope τ) (state : σ) :
    ∃ scope' state', scope'.node = Part.onto f body scope.node ∧ ∀ outer rest,
      build factory (body.flatMap Part.intents ++ rest) scope outer state =
        build factory rest scope' outer state' := by
  induction body generalizing scope state with
  | nil => exact ⟨scope, state, (Part.onto_nil f scope.node).symm, fun _ _ => rfl⟩
  | cons part body ih =>
      obtain ⟨scope₁, state₁, node, reads⟩ := build_part computes part scope state
      obtain ⟨scope', state', node', reads'⟩ := ih scope₁ state₁
      refine ⟨scope', state', ?_, fun outer rest => ?_⟩
      · rw [node', node]
        exact (Part.onto_append f [part] body scope.node).symm
      · rw [List.flatMap_cons, List.append_assoc, reads, reads']

/-- Reading a chain of folds leaves its last node open. The induction is on the folds; of the nodes
before, only the end is handed on. -/
theorem build_chain (chain : FoldChain τ) (scope : Scope τ) (state : σ) :
    ∃ scope' state', scope'.node = chain.node f ∧ ∀ outer rest,
      build factory (chain.intents ++ rest) scope outer state =
        build factory rest scope' outer state' := by
  induction chain with
  | first pos body =>
      obtain ⟨scope', state', node, reads⟩ := build_body computes body (.fresh pos) state
      refine ⟨scope', state', ?_, reads⟩
      rw [node]
      simp [FoldChain.node, FoldChain.stop, FoldChain.captures, FoldChain.start, Part.onto,
        Scope.fresh, Scope.node]
  | fold before pos label body ih =>
      obtain ⟨left, state₁, same, reads⟩ := ih
      have stop : left.stop = before.stop := by
        rw [← before.stop_node f, ← same]
        rfl
      let opened : Scope τ := ⟨.null, pos, left.stop, #[(label, before.tree f)], none⟩
      obtain ⟨scope', state', node, reads'⟩ :=
        build_body computes body opened (factory.make left.node state₁).2
      refine ⟨scope', state', ?_, fun outer rest => ?_⟩
      · rw [node]
        simp [FoldChain.node, FoldChain.tree, FoldChain.stop, FoldChain.captures, FoldChain.start,
          Part.onto, Scope.node, opened, stop]
      · have made : (factory.make left.node state₁).1 = before.tree f := by
          rw [computes, same]
          rfl
        rw [FoldChain.intents, List.append_assoc, reads, List.cons_append, build]
        dsimp only
        rw [made]
        exact reads' outer rest

theorem construct_chain (chain : FoldChain τ) (state : σ) :
    (construct factory chain.intents state).1.node = chain.tree f := by
  obtain ⟨scope, state', node, reads⟩ :=
    build_chain computes chain (Scope.opening chain.intents) state
  have read := reads [] []
  rw [List.append_nil] at read
  rw [construct, read, build]
  dsimp only
  rw [closeAll, computes, node]
  rfl

/-- A node that is begun anew outside nested scopes forgets what was read before. -/
theorem construct_begin {skipped : List (Intent τ)} (balanced : Balanced skipped) (pos : Nat)
    (later : List (Intent τ)) (state state' : σ) :
    (construct factory (skipped ++ .begin pos :: later) state).1.node =
      (construct factory (.begin pos :: later) state').1.node := by
  obtain ⟨scope, state₁, reads⟩ :=
    balanced.build factory (Scope.opening (skipped ++ .begin pos :: later)) state
  rw [construct, reads, construct, build, build]
  exact build_eq computes later (.fresh pos) [] state₁ state'

end Pure

theorem result_begin (factory : TreeFactory σ τ) (start stop pos : Nat) {lead : List (Intent τ)}
    (plain : ∀ intent ∈ lead, intent.isBegin = false) (rest : List (Intent τ)) (state : σ) :
    (result factory start stop (lead ++ .begin pos :: rest) state).1 =
      (construct factory (.begin pos :: rest) state).1.node := by
  have dropped : (lead ++ .begin pos :: rest).dropWhile (fun intent => !intent.isBegin) =
      .begin pos :: rest := by
    rw [List.dropWhile_append_of_pos fun intent member => by rw [plain intent member]; rfl]
    rfl
  rw [result, dropped]

end Intent

namespace TreeLog

/-- Folding to the left is left-associative, however long the chain of folds is. The log of a chain is
read to the tree of its last node, whose first child is the tree of the chain before it and so on; so
it is in a nested scope, and wherever intents that begin no node stand in front of it. And a log is
read from the last node that is begun outside nested scopes: balanced intents in front of that, from
an earlier beginning on, make no difference. -/
theorem left_folds_nest_left {factory : TreeFactory σ τ} {f : Node τ → τ}
    (computes : factory.Computes f) (start stop : Nat) :
    (∀ (chain : FoldChain τ) (state : σ),
      (Intent.construct factory chain.intents state).1.node = chain.tree f) ∧
    (∀ (log : TreeLog τ) (lead : List (Intent τ)) (chain : FoldChain τ),
      (∀ intent ∈ lead, intent.isBegin = false) → log.intents = lead ++ chain.intents →
      ∀ state, (log.parseResult factory start stop state).1 = chain.tree f) ∧
    ∀ (log log' : TreeLog τ) (lead skipped later : List (Intent τ)) (pos : Nat),
      (∀ intent ∈ lead, intent.isBegin = false) →
      (skipped = [] ∨ ∃ earlier rest, skipped = .begin earlier :: rest) →
      Intent.Balanced skipped →
      log.intents = lead ++ skipped ++ .begin pos :: later → log'.intents = .begin pos :: later →
      ∀ state state', (log.parseResult factory start stop state).1 =
        (log'.parseResult factory start stop state').1 := by
  refine ⟨Intent.construct_chain computes, ?_, ?_⟩
  · intro log lead chain plain written state
    obtain ⟨rest, begins⟩ := chain.intents_eq
    change (Intent.result factory start stop log.intents state).1 = chain.tree f
    rw [written, begins, Intent.result_begin factory start stop chain.start plain, ← begins]
    exact Intent.construct_chain computes chain state
  · intro log log' lead skipped later pos plain restarts balanced written written' state state'
    have read : (Intent.result factory start stop (lead ++ (skipped ++ .begin pos :: later))
        state).1 = (Intent.construct factory (skipped ++ .begin pos :: later) state).1.node := by
      rcases restarts with rfl | ⟨earlier, rest, rfl⟩
      · exact Intent.result_begin factory start stop pos plain later state
      · exact Intent.result_begin factory start stop earlier plain _ state
    have read' : (Intent.result factory start stop (.begin pos :: later) state').1 =
        (Intent.construct factory (.begin pos :: later) state').1.node :=
      Intent.result_begin factory start stop pos (List.forall_mem_nil _) later state'
    change (Intent.result factory start stop log.intents state).1 =
      (Intent.result factory start stop log'.intents state').1
    rw [written, written', List.append_assoc, read, read']
    exact Intent.construct_begin computes balanced pos later state state'

/-- Two folds with a nested scope between them, behind a node that is given up. -/
theorem left_folds_nest_left_scoped :
    let before : FoldChain Tree := .fold (.first 0 [.capture 1, .tag ⟨5⟩]) 0 ⟨6⟩
      [.tag ⟨7⟩, .scope [.begin 2, .capture 3] (.single rfl (.single rfl .nil)) ⟨8⟩, .capture 3]
    let chain : FoldChain Tree := before.fold 4 ⟨6⟩ [.replace #[0x2b], .link ⟨9⟩ none]
    let log (intents : List (Intent Tree)) : TreeLog Tree := intents.foldl append (new true)
    let folded := log (.capture 9 :: chain.intents)
    let restarted := log (.tag ⟨1⟩ :: .begin 7 :: .push :: .pop ⟨2⟩ :: chain.intents)
    (folded.parseResult Tree.factory 0 9 ()).1 = chain.tree Tree.ofNode ∧
      (restarted.parseResult Tree.factory 0 9 ()).1 = chain.tree Tree.ofNode ∧
      chain.tree Tree.ofNode = .node .null 4 3
        [(⟨6⟩, .node ⟨7⟩ 0 3 [(⟨6⟩, .node ⟨5⟩ 0 1 [] none), (⟨8⟩, .node .null 2 3 [] none)] none)]
        (some #[0x2b]) := by
  intro before chain log folded restarted
  have computes : Tree.factory.Computes Tree.ofNode := fun _ _ => rfl
  obtain ⟨_, read, forgets⟩ := left_folds_nest_left computes 0 9
  have balanced : Intent.Balanced [Intent.begin (τ := Tree) 7, .push, .pop ⟨2⟩] :=
    .single rfl (.nested ⟨2⟩ .nil .nil)
  have written : folded.intents = [.capture 9] ++ chain.intents := by decide +kernel
  have written' : restarted.intents =
      [.tag ⟨1⟩] ++ [.begin 7, .push, .pop ⟨2⟩] ++ .begin 0 :: chain.intents.tail := by
    decide +kernel
  have alone : (log chain.intents).intents = chain.intents := by decide +kernel
  have plain : ∀ intent ∈ [Intent.capture (τ := Tree) 9], intent.isBegin = false := by
    simp [Intent.isBegin]
  have plain' : ∀ intent ∈ [Intent.tag (τ := Tree) ⟨1⟩], intent.isBegin = false := by
    simp [Intent.isBegin]
  refine ⟨read folded _ chain plain written (), ?_, by decide +kernel⟩
  have same := forgets restarted (log chain.intents) _ _ _ 0 plain' (.inr ⟨7, _, rfl⟩) balanced
    written' alone () ()
  exact same.trans (read _ [] chain (List.forall_mem_nil _) alone ())

end TreeLog

end Packrat
