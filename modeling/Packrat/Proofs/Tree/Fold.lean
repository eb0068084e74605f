/-
Other values in place of nodes. A map that turns what one factory makes into what another one makes
turns the node that a list of intents is built into, and a log with all that it holds, into those of
the other factory. Folding a tree is such a map, whatever function the fold applies to a node.
-/

import Packrat.Tree.Log

namespace Packrat

variable {σ σ' τ τ' : Type}

/-! ### Factories -/

/-- A factory whose values are those of a function of the node, whatever state it keeps. -/
def TreeFactory.Computes (factory : TreeFactory σ τ) (f : Node τ → τ) : Prop :=
  ∀ node state, (factory.make node state).1 = f node

def Node.map (h : τ → τ') (node : Node τ) : Node τ' :=
  ⟨node.tag, node.start, node.stop, node.children.map fun child => (child.1, h child.2), node.value⟩

/-- What the second factory makes of the images of children is the image of what the first one makes
of the children. -/
def TreeFactory.Carries (h : τ → τ') (factory : TreeFactory σ τ) (factory' : TreeFactory σ' τ') :
    Prop :=
  ∀ node state state', (factory'.make (node.map h) state').1 = h (factory.make node state).1

namespace Tree

theorem foldChildren_eq (f : Node τ → τ) (children : List (Symbol × Tree)) :
    foldChildren f children = children.map fun child => (child.1, fold f child.2) := by
  induction children with
  | nil => rfl
  | cons child rest ih => rw [foldChildren, ih, List.map_cons]

theorem carries_fold {factory : TreeFactory σ τ} {f : Node τ → τ} (computes : factory.Computes f) :
    TreeFactory.Carries (fold f) Tree.factory factory := by
  intro node state state'
  change _ = fold f (ofNode node)
  rw [computes, ofNode, fold, foldChildren_eq]
  rfl

end Tree

/-! ### Intents -/

variable {h : τ → τ'} {factory : TreeFactory σ τ} {factory' : TreeFactory σ' τ'}

def Intent.map (h : τ → τ') : Intent τ → Intent τ'
  | .begin pos => .begin pos
  | .capture pos => .capture pos
  | .tag name => .tag name
  | .replace value => .replace value
  | .leftFold pos label => .leftFold pos label
  | .push => .push
  | .pop label => .pop label
  | .link label child => .link label (child.map h)

def Scope.map (h : τ → τ') (scope : Scope τ) : Scope τ' :=
  ⟨scope.tag, scope.start, scope.stop, scope.children.map fun child => (child.1, h child.2),
    scope.value⟩

namespace Scope

theorem node_map (scope : Scope τ) : (scope.map h).node = scope.node.map h := by
  simp only [map, node, Node.map, Array.toList_map]

theorem attach_map (scope : Scope τ) (label : Symbol) (child : τ) :
    (scope.map h).attach label (h child) = (scope.attach label child).map h := by
  simp only [map, attach, Array.map_push]

theorem fresh_map (pos : Nat) : (fresh pos : Scope τ).map h = fresh pos := by
  simp only [map, fresh, Array.map_empty]

theorem opening_map (intents : List (Intent τ)) :
    opening (intents.map (Intent.map h)) = (opening intents).map h := by
  cases intents with
  | nil => exact (fresh_map 0).symm
  | cons intent rest =>
      have same : position (intent.map h) = position intent := by cases intent <;> rfl
      rw [List.map_cons, opening, opening, fresh_map, same]

end Scope

namespace Intent

theorem closeAll_map (carries : factory.Carries h factory') (scope : Scope τ)
    (outer : List (Scope τ)) (state : σ) (state' : σ') :
    (closeAll factory' (scope.map h) state' (outer.map (Scope.map h))).1 =
      h (closeAll factory scope state outer).1 := by
  induction outer generalizing scope state state' with
  | nil =>
      rw [List.map_nil, closeAll, closeAll, scope.node_map]
      exact carries scope.node state state'
  | cons parent outer ih =>
      rw [List.map_cons, closeAll, closeAll]
      dsimp only
      rw [scope.node_map, carries scope.node state state', parent.attach_map]
      exact ih _ _ _

theorem build_map (carries : factory.Carries h factory') (intents : List (Intent τ))
    (scope : Scope τ) (outer : List (Scope τ)) (state : σ) (state' : σ') :
    (build factory' (intents.map (map h)) (scope.map h) (outer.map (Scope.map h)) state').1.node =
      h (build factory intents scope outer state).1.node := by
  induction intents generalizing scope outer state state' with
  | nil => exact closeAll_map carries scope outer state state'
  | cons intent rest ih =>
      cases intent with
      | begin pos =>
          rw [List.map_cons, map, build, build, ← Scope.fresh_map pos]
          exact ih (.fresh pos) outer state state'
      | capture pos => exact ih { scope with stop := pos } outer state state'
      | tag name => exact ih { scope with tag := name } outer state state'
      | replace value => exact ih { scope with value := some value } outer state state'
      | push =>
          rw [List.map_cons, map, build, build, Scope.opening_map]
          exact ih (Scope.opening rest) (scope :: outer) state state'
      | leftFold pos label =>
          have left := carries scope.node state state'
          rw [← scope.node_map] at left
          have first : #[(label, h (factory.make scope.node state).1)] =
              #[(label, (factory.make scope.node state).1)].map fun child =>
                (child.1, h child.2) := by
            simp only [List.map_toArray, List.map_cons, List.map_nil]
          rw [List.map_cons, map, build, build]
          dsimp only
          rw [left, first]
          exact ih ⟨.null, pos, scope.stop, #[(label, (factory.make scope.node state).1)], none⟩
            outer _ _
      | pop label =>
          have closed := carries scope.node state state'
          rw [← scope.node_map] at closed
          cases outer with
          | nil => exact closed
          | cons parent outer =>
              rw [List.map_cons, List.map_cons, map, build, build]
              dsimp only
              rw [closed, parent.attach_map]
              exact ih _ outer _ _
      | link label child =>
          cases child with
          | none => exact ih scope outer state state'
          | some child =>
              rw [List.map_cons, map, Option.map_some, build, build, scope.attach_map]
              exact ih (scope.attach label child) outer state state'

theorem construct_map (carries : factory.Carries h factory') (intents : List (Intent τ)) (state : σ)
    (state' : σ') : (construct factory' (intents.map (map h)) state').1.node =
      h (construct factory intents state).1.node := by
  unfold construct
  rw [Scope.opening_map]
  exact build_map carries intents (Scope.opening intents) [] state state'

theorem isBegin_map (intent : Intent τ) : (intent.map h).isBegin = intent.isBegin := by
  cases intent <;> rfl

theorem result_map (carries : factory.Carries h factory') (start stop : Nat)
    (intents : List (Intent τ)) (state : σ) (state' : σ') :
    (result factory' start stop (intents.map (map h)) state').1 =
      h (result factory start stop intents state).1 := by
  have begins : (fun intent : Intent τ' => !intent.isBegin) ∘ map h =
      fun intent : Intent τ => !intent.isBegin := by
    funext intent
    exact congrArg (!·) intent.isBegin_map
  unfold result
  rw [List.dropWhile_map, begins]
  cases intents.dropWhile fun intent => !intent.isBegin with
  | nil => exact carries ⟨.null, start, stop, [], none⟩ state state'
  | cons first rest => exact construct_map carries (first :: rest) state state'

end Intent

/-! ### Logs -/

def LogEntry.map (h : τ → τ') (entry : LogEntry τ) : LogEntry τ' :=
  ⟨entry.number, entry.intent.map (Intent.map h), entry.next⟩

namespace TreeLog

def map (h : τ → τ') (log : TreeLog τ) : TreeLog τ' :=
  ⟨log.entries.map (LogEntry.map h), log.last, log.free, log.freeLength, log.latestLinked.map h,
    log.enabled⟩

/-! Every operation on the image of a log gives the image of what it gives on the log. -/

theorem new_map (enabled : Bool) : (new enabled : TreeLog τ).map h = new enabled := by
  simp only [map, new, List.map_toArray, List.map_cons, List.map_nil, Option.map_none]
  rfl

theorem entry_map (log : TreeLog τ) (index : Nat) :
    (log.map h).entry index = (log.entry index).map h := by
  unfold entry
  rw [Array.getD_eq_getD_getElem?, Array.getD_eq_getD_getElem?, map, Array.getElem?_map]
  cases log.entries[index]? <;> rfl

theorem length_map (log : TreeLog τ) : (log.map h).length = log.length := by
  unfold length
  rw [entry_map]
  rfl

theorem mark_map (log : TreeLog τ) : (log.map h).mark = log.mark := by
  unfold mark
  rw [length_map]
  rfl

theorem follow_map (entries : Array (LogEntry τ)) (fuel : Nat) (start : Option Nat) :
    follow (entries.map (LogEntry.map h)) fuel start =
      (follow entries fuel start).map (Intent.map h) := by
  induction fuel generalizing start with
  | zero => rfl
  | succ fuel ih =>
      cases start with
      | none => rfl
      | some index =>
          rw [follow, follow, Array.getElem?_map]
          cases entries[index]? with
          | none => rfl
          | some entry =>
              obtain ⟨number, intent, next⟩ := entry
              cases intent with
              | none => exact ih next
              | some intent => exact congrArg (intent.map h :: ·) (ih next)

theorem intentsAfter_map (log : TreeLog τ) (index : Nat) :
    (log.map h).intentsAfter index = (log.intentsAfter index).map (Intent.map h) := by
  unfold intentsAfter
  rw [entry_map, map, Array.size_map]
  exact follow_map log.entries log.entries.size (log.entry index).next

theorem linkEntry_map (entries : Array (LogEntry τ)) (index : Nat) (next : Option Nat) :
    linkEntry (entries.map (LogEntry.map h)) index next =
      (linkEntry entries index next).map (LogEntry.map h) := by
  apply Array.ext_getElem?
  intro place
  unfold linkEntry
  rw [Array.getElem?_map, Array.getElem?_modify, Array.getElem?_modify, Array.getElem?_map]
  split
  · cases entries[place]? <;> rfl
  · rfl

theorem append_map (log : TreeLog τ) (intent : Intent τ) :
    (log.map h).append (intent.map h) = (log.append intent).map h := by
  have added : (⟨(log.map h).length + 1, some (intent.map h), none⟩ : LogEntry τ') =
      LogEntry.map h ⟨log.length + 1, some intent, none⟩ := by
    rw [length_map]
    rfl
  unfold append
  dsimp only
  rw [added]
  cases enabled : log.enabled with
  | false =>
      have off : (log.map h).enabled = false := enabled
      simp only [off, Bool.false_eq_true, if_false]
  | true =>
      have on : (log.map h).enabled = true := enabled
      cases free : log.free with
      | none =>
          have free' : (log.map h).free = none := free
          simp only [on, free', if_true]
          simp only [map, ← Array.map_push, linkEntry_map, Array.size_map]
      | some index =>
          have free' : (log.map h).free = some index := free
          simp only [on, free', if_true, entry_map]
          simp only [map, ← Array.map_setIfInBounds, linkEntry_map]
          rfl

theorem link_map (log : TreeLog τ) (label : Symbol) (child : Option τ) :
    (log.map h).link label (child.map h) = (log.link label child).map h := by
  unfold link
  cases enabled : log.enabled with
  | false =>
      have off : (log.map h).enabled = false := enabled
      simp only [off, Bool.false_eq_true, if_false]
  | true =>
      have on : (log.map h).enabled = true := enabled
      rw [if_pos on, if_pos rfl, ← enabled]
      exact append_map { log with latestLinked := child } (.link label child)

theorem abort_map (log : TreeLog τ) (mark : LogMark) :
    (log.map h).abort mark = (log.abort mark).map h := by
  unfold abort
  by_cases last : mark.index = log.last
  · have last' : mark.index = (log.map h).last := last
    rw [if_pos last, if_pos last']
  · have last' : ¬ mark.index = (log.map h).last := last
    rw [if_neg last, if_neg last']
    simp only [length_map, entry_map]
    simp only [map, linkEntry_map]
    rfl

theorem commit_map (carries : factory.Carries h factory') (log : TreeLog τ) (mark : LogMark)
    (label : Symbol) (state : σ) (state' : σ') :
    ((log.map h).commit factory' mark label state').1 =
      (log.commit factory mark label state).1.map h := by
  unfold commit
  rw [intentsAfter_map]
  cases enabled : log.enabled with
  | false =>
      have off : (log.map h).enabled = false := enabled
      simp only [off, Bool.false_eq_true, if_false]
  | true =>
      have on : (log.map h).enabled = true := enabled
      simp only [on, if_true]
      cases intents : log.intentsAfter mark.index with
      | nil =>
          simp only [List.map_nil, abort_map]
          rfl
      | cons first rest =>
          have node := Intent.construct_map carries (first :: rest) state state'
          simp only [List.map_cons, abort_map] at node ⊢
          rw [node]
          exact link_map (log.abort mark) label
            (some (Intent.construct factory (first :: rest) state).1.node)

theorem parseResult_map (carries : factory.Carries h factory') (log : TreeLog τ) (start stop : Nat)
    (state : σ) (state' : σ') :
    ((log.map h).parseResult factory' start stop state').1 =
      h (log.parseResult factory start stop state).1 := by
  have tree := Intent.result_map carries start stop log.intents state state'
  unfold intents at tree
  rw [← intentsAfter_map] at tree
  exact tree

end TreeLog

end Packrat
