/-
What a reading of live entries consumes. The places that a reading takes are those up to the end of
its scope: before that no `pop` is without its `push`, and there the log ends, or a `pop` comes which
closes the scope. Nested scopes are handed their places in the same way, also those that no `pop`
closes, which take all that is left. From this shape it follows that the reading ends on every live
chain, that no entry is consumed twice, and that the node is the one which the list of the intents is
built into.
-/

import Packrat.Proofs.Tree.Reading

namespace Packrat.TreeLog

variable {σ τ : Type}

/-! ### Where a reading ends -/

/-- The places part where a scope ends: no `pop` before that is without its `push`, and after it come no
places, or first the `pop` that closes the scope, as every `push` before has its own. -/
structure Ends (log : TreeLog τ) (inside rest : List Nat) : Prop where
  matched : ∀ count, (inside.take count).countP log.closes ≤ (inside.take count).countP log.opens
  ends : rest = [] ∨ (∃ pop ∈ rest.head?, log.closes pop = true) ∧
    inside.countP log.closes = inside.countP log.opens

namespace Ends

variable {log : TreeLog τ} {place : Nat} {inside more rest : List Nat}

theorem nil (log : TreeLog τ) : Ends log [] [] :=
  ⟨fun count => by rw [List.take_nil]; exact Nat.le_refl _, .inl rfl⟩

theorem pop (close_yes : log.closes place = true) (rest : List Nat) : Ends log [] (place :: rest) :=
  ⟨(nil log).matched, .inr ⟨⟨place, rfl, close_yes⟩, rfl⟩⟩

theorem plain (plain : log.opens place = false ∧ log.closes place = false)
    (ends : Ends log inside rest) : Ends log (place :: inside) rest := by
  obtain ⟨open_no, close_no⟩ := plain
  constructor
  · intro count
    cases count with
    | zero => exact Nat.le_refl _
    | succ count =>
        simp only [List.take_succ_cons, List.countP_cons, open_no, close_no]
        exact ends.matched count
  · simp only [List.countP_cons, open_no, close_no]
    exact ends.ends

/-- A scope that is not closed takes all that is left. -/
theorem unclosed (push : log.intentAt place = some .push) (ends : Ends log inside []) :
    Ends log (place :: inside) [] := by
  obtain ⟨open_yes, close_no, _⟩ := push_kind push
  refine ⟨fun count => ?_, .inl rfl⟩
  cases count with
  | zero => exact Nat.le_refl _
  | succ count =>
      have matched := ends.matched count
      simp only [List.take_succ_cons, List.countP_cons, open_yes, close_no, if_true,
        Bool.false_eq_true, if_false]
      omega

/-- Where places are left, the first of them is a `pop`. -/
theorem closed {closing : Nat} {after : List Nat} (ends : Ends log inside (closing :: after)) :
    (∃ label, log.intentAt closing = some (.pop label)) ∧
      inside.countP log.closes = inside.countP log.opens := by
  obtain none | ⟨⟨_, head, close_yes⟩, level⟩ := ends.ends
  · cases none
  · obtain rfl := Option.some.inj head
    exact ⟨pop_of_closes close_yes, level⟩

/-- A scope that is closed is read over. -/
theorem nest {closing : Nat} {after : List Nat} (push : log.intentAt place = some .push)
    (inner : Ends log inside (closing :: after)) (outer : Ends log more rest) :
    Ends log (place :: (inside ++ closing :: more)) rest := by
  obtain ⟨open_yes, close_no, _⟩ := push_kind push
  obtain ⟨⟨label, pop⟩, level⟩ := inner.closed
  obtain ⟨open_no, close_yes, _⟩ := pop_kind pop
  constructor
  · intro count
    cases count with
    | zero => exact Nat.le_refl _
    | succ count =>
        have before := inner.matched count
        simp only [List.take_succ_cons, List.countP_cons, List.take_append, List.countP_append, open_yes,
          close_no, if_true, Bool.false_eq_true, if_false]
        rcases Nat.lt_or_ge inside.length count with beyond | within
        · obtain ⟨past, split⟩ := Nat.exists_eq_add_of_lt beyond
          have matched := outer.matched past
          have cut : count - inside.length = past + 1 := by omega
          rw [cut, List.take_of_length_le (Nat.le_of_lt beyond), List.take_succ_cons, List.countP_cons,
            List.countP_cons, open_no, close_yes, level]
          simp only [if_true, Bool.false_eq_true, if_false]
          omega
        · rw [Nat.sub_eq_zero_of_le within, List.take_zero]
          simp only [List.countP_nil]
          omega
  · simp only [List.countP_cons, List.countP_append, open_yes, open_no, close_yes, close_no, if_true,
      Bool.false_eq_true, if_false]
    refine outer.ends.imp id fun ⟨closed, level'⟩ => ⟨closed, ?_⟩
    omega

theorem intents (ends : Ends log inside rest) :
    log.intentsAt rest = Intent.remainder (log.remaining rest) := by
  cases rest with
  | nil => rfl
  | cons closing after =>
      obtain ⟨⟨label, pop⟩, _⟩ := ends.closed
      simp only [intentsAt_cons, pop, remaining, labelOf, Intent.remainder, Option.toList_some,
        List.singleton_append]

/-- A scope opens in the same way whatever lies behind its end. -/
theorem opening (ends : Ends log inside rest) :
    Scope.opening (log.intentsAt (inside ++ rest)) = Scope.opening (log.intentsAt inside) := by
  rw [intentsAt_append, ends.intents, Scope.opening_remainder]

end Ends

/-- A nested scope was handed the places behind its `push` as far as the scope goes. -/
def Handed (log : TreeLog τ) (places : List Nat) (scope : NestedScope) : Prop :=
  ∃ before rest, places = before ++ scope.push :: (scope.inside ++ rest) ∧ Ends log scope.inside rest ∧
    scope.closing = rest.head?

theorem Handed.shift {log : TreeLog τ} {places : List Nat} {scope : NestedScope}
    (handed : Handed log places scope) (front : List Nat) : Handed log (front ++ places) scope := by
  obtain ⟨before, rest, split, facts⟩ := handed
  exact ⟨front ++ before, rest, by rw [split, List.append_assoc], facts⟩

/-! ### Readings of a chain -/

/-- What a reading of these places comes to: it takes them up to the end of its scope, reports where that
is, has handed the nested scopes theirs, and has built what the list of intents is built into, whatever
scopes are around it. -/
structure Reads (factory : TreeFactory σ τ) (log : TreeLog τ) (scope : Scope τ) (state : σ)
    (places : List Nat) (reading : Reading σ τ) (rest : List Nat) : Prop where
  split : places = reading.inside ++ rest
  ends : Ends log reading.inside rest
  closing : reading.closing = rest.head?
  pushes : reading.nested.map NestedScope.push = reading.visits.filter log.opens
  handed : ∀ nested ∈ reading.nested, Handed log places nested
  /-- Anything may follow the scope, but nothing follows one that was not closed. -/
  built : ∀ following, (rest = [] → following = none) → ∀ outer,
    Intent.build factory (log.intentsAt reading.inside ++ Intent.remainder following) scope outer state =
      Intent.leave factory ⟨reading.node, following⟩ reading.state outer

namespace Reads

variable {factory : TreeFactory σ τ} {log : TreeLog τ} {place : Nat} {scope : Scope τ} {state : σ}

theorem nil (factory : TreeFactory σ τ) (log : TreeLog τ) (scope : Scope τ) (state : σ) :
    Reads factory log scope state [] (.ended factory scope state none) [] where
  split := rfl
  ends := .nil log
  closing := rfl
  pushes := rfl
  handed := nofun
  built := by
    intro following nothing outer
    rw [nothing rfl]
    cases outer <;> rfl

theorem pop {label : Symbol} (pop : log.intentAt place = some (.pop label)) (rest : List Nat) :
    Reads factory log scope state (place :: rest) (.ended factory scope state (some place))
      (place :: rest) where
  split := rfl
  ends := .pop (pop_kind pop).2.1 rest
  closing := rfl
  pushes := by
    have visits : (Reading.ended factory scope state (some place)).visits = [place] := rfl
    rw [visits, List.filter_cons, (pop_kind pop).1]
    rfl
  handed := nofun
  built := by
    rintro (_ | ⟨label, more⟩) _ outer <;> cases outer <;> rfl

theorem plain (plain : log.opens place = false ∧ log.closes place = false) {places rest : List Nat}
    {reading : Reading σ τ}
    (reads : Reads factory log (log.absorbAt factory place scope state).1
      (log.absorbAt factory place scope state).2 places reading rest) :
    Reads factory log scope state (place :: places) (reading.visit place) rest where
  split := congrArg (place :: ·) reads.split
  ends := reads.ends.plain plain
  closing := reads.closing
  pushes := by
    rw [visits_visit, List.filter_cons, plain.1]
    exact reads.pushes
  handed nested member := (reads.handed nested member).shift [place]
  built := by
    intro following nothing outer
    change Intent.build factory (log.intentsAt (place :: reading.inside) ++ _) _ _ _ = _
    rw [intentsAt_cons, List.append_assoc, build_plain plain]
    exact reads.built following nothing outer

/-- What follows a nested scope: the `pop` that closes it, if one does, and then the rest of the scope
around it with what follows that. -/
theorem handover {inside between more rest : List Nat} (ends : Ends log inside between)
    (split : between.tail = more ++ rest) {following : Option (Symbol × List (Intent τ))}
    (nothing : rest = [] → following = none) :
    ∃ next, (between = [] → next = none) ∧
      next.getD (.null, []) =
        (log.labelOf between.head?, log.intentsAt more ++ Intent.remainder following) ∧
      Intent.remainder next =
        log.intentsAt between.head?.toList ++ (log.intentsAt more ++ Intent.remainder following) := by
  cases between with
  | nil =>
      obtain ⟨rfl, rfl⟩ := List.append_eq_nil_iff.mp split.symm
      rw [nothing rfl]
      exact ⟨none, fun _ => rfl, rfl, rfl⟩
  | cons closing behind =>
      obtain ⟨⟨label, pop⟩, _⟩ := ends.closed
      have labelled : log.labelOf (some closing) = label := by
        simp only [labelOf, pop]
      refine ⟨some (label, log.intentsAt more ++ Intent.remainder following), nofun, ?_, ?_⟩
      · rw [List.head?_cons, labelled]
        rfl
      · rw [List.head?_cons, Option.toList_some, intentsAt_cons, pop]
        rfl

theorem nest (push : log.intentAt place = some .push) {places between rest : List Nat}
    {inner outer : Reading σ τ}
    (reads : Reads factory log (Scope.opening (log.intentsAt places)) state places inner between)
    (reads' : Reads factory log (scope.attach (log.labelOf inner.closing) inner.node) inner.state
      between.tail outer rest) :
    Reads factory log scope state (place :: places) (inner.nest place outer) rest := by
  have rejoined : inner.closing.toList ++ between.tail = between := by
    rw [reads.closing]
    cases between <;> rfl
  have split : places = inner.visits ++ between.tail := by
    rw [reads.split]
    unfold Reading.visits
    rw [List.append_assoc, rejoined]
  constructor
  · change place :: places = place :: (inner.visits ++ outer.inside) ++ rest
    rw [List.cons_append, List.append_assoc, ← reads'.split, ← split]
  · change Ends log (place :: (inner.inside ++ inner.closing.toList ++ outer.inside)) rest
    rw [reads.closing]
    have inner_ends := reads.ends
    have outer_split := reads'.split
    cases between with
    | nil =>
        obtain ⟨none_inside, none_rest⟩ := List.append_eq_nil_iff.mp outer_split.symm
        rw [none_inside, none_rest, List.append_nil, List.head?_nil, Option.toList_none, List.append_nil]
        exact inner_ends.unclosed push
    | cons closing after =>
        rw [List.append_assoc]
        exact inner_ends.nest push reads'.ends
  · exact reads'.closing
  · rw [visits_nest, List.filter_cons, (push_kind push).1, List.filter_append, ← reads.pushes,
      ← reads'.pushes]
    simp only [Reading.nest, List.map_cons, List.map_append, if_true]
  · intro nested member
    rcases List.mem_cons.mp member with rfl | member
    · exact ⟨[], between, by rw [reads.split]; rfl, reads.ends, reads.closing⟩
    · rcases List.mem_append.mp member with inside | behind
      · exact (reads.handed nested inside).shift [place]
      · have handed := (reads'.handed nested behind).shift (place :: inner.visits)
        rw [List.cons_append, ← split] at handed
        exact handed
  · intro following nothing around
    obtain ⟨next, unclosed, handed, remains⟩ := handover reads.ends reads'.split nothing
    have inside : log.intentsAt (inner.nest place outer).inside ++ Intent.remainder following =
        .push :: (log.intentsAt inner.inside ++ Intent.remainder next) := by
      change log.intentsAt (place :: (inner.inside ++ inner.closing.toList ++ outer.inside)) ++ _ = _
      rw [intentsAt_cons, push, intentsAt_append, intentsAt_append, reads.closing, remains]
      simp only [Option.toList_some, List.append_assoc, List.cons_append, List.nil_append]
    have opening : Scope.opening (log.intentsAt inner.inside ++ Intent.remainder next) =
        Scope.opening (log.intentsAt places) := by
      rw [reads.split, reads.ends.opening, Scope.opening_remainder]
    have after := reads'.built following nothing around
    rw [reads.closing] at after
    rw [inside, Intent.build, opening, reads.built next unclosed (scope :: around)]
    unfold Intent.leave
    rw [handed]
    exact after

/-- What a reading takes is built into its node alone, with nothing left. -/
theorem alone {places rest : List Nat} {reading : Reading σ τ}
    (reads : Reads factory log scope state places reading rest) :
    Intent.build factory (log.intentsAt reading.inside) scope [] state =
      (⟨reading.node, none⟩, reading.state) := by
  have built := reads.built none (fun _ => rfl) []
  rw [Intent.remainder, List.append_nil] at built
  exact built

theorem whole {places rest : List Nat} {reading : Reading σ τ}
    (reads : Reads factory log scope state places reading rest) :
    Intent.build factory (log.intentsAt places) scope [] state =
      (⟨reading.node, log.remaining rest⟩, reading.state) := by
  have nothing : rest = [] → log.remaining rest = none := by
    rintro rfl
    rfl
  rw [reads.split, intentsAt_append, reads.ends.intents]
  exact reads.built (log.remaining rest) nothing []

end Reads

/-! ### The chain of live entries -/

section Chain

variable {factory : TreeFactory σ τ} {log : TreeLog τ} {cursor : Option Nat} {places : List Nat}

theorem follow_eq_intentsAt {fuel : Nat} (linked : Linked log.entries cursor places none)
    (enough : places.length ≤ fuel) : follow log.entries fuel cursor = log.intentsAt places := by
  induction places generalizing cursor fuel with
  | nil =>
      cases linked
      cases fuel <;> rfl
  | cons place rest ih =>
      obtain ⟨rfl, entry, found, linked⟩ := linked
      cases fuel with
      | zero => cases enough
      | succ fuel =>
          have intent : log.intentAt place = entry.intent :=
            congrArg LogEntry.intent (Layout.entry_eq found)
          have more := ih linked (Nat.le_of_succ_le_succ enough)
          unfold intentsAt at more ⊢
          rw [List.filterMap_cons, intent, ← more]
          simp only [follow, found]
          cases entry.intent <;> rfl

/-- A nested scope opens at the entry behind its `push`, as it does at the first of the intents there. -/
theorem opening_eq (linked : Linked log.entries cursor places none)
    (filled : ∀ place ∈ places, log.intentAt place ≠ none) :
    Scope.opening (log.intentsAt places) = log.openingAt cursor := by
  cases places with
  | nil =>
      cases linked
      rfl
  | cons place rest =>
      obtain ⟨rfl, _⟩ := linked
      cases content : log.intentAt place with
      | none => exact absurd content (filled place List.mem_cons_self)
      | some intent => simp only [intentsAt, List.filterMap_cons, content, openingAt, Scope.opening]

theorem Linked.next_at {place : Nat} {rest : List Nat}
    (linked : Linked log.entries cursor (place :: rest) none) :
    cursor = some place ∧ Linked log.entries (log.entry place).next rest none := by
  obtain ⟨leads, entry, found, linked⟩ := linked
  rw [Layout.entry_eq found]
  exact ⟨leads, linked⟩

theorem Linked.following {inside rest : List Nat}
    (linked : Linked log.entries cursor (inside ++ rest) none) :
    Linked log.entries (log.following rest.head?) rest.tail none := by
  obtain ⟨middle, _, behind⟩ := linked_append.mp linked
  cases rest with
  | nil => rfl
  | cons place rest => exact behind.next_at.2

/-- The reading of a chain ends, with fuel for one step more than the chain has places. -/
theorem exists_reads (factory : TreeFactory σ τ) (linked : Linked log.entries cursor places none)
    (filled : ∀ place ∈ places.tail, log.intentAt place ≠ none) (scope : Scope τ) (state : σ) :
    ∃ reading rest, (∀ fuel, places.length < fuel →
      log.read factory fuel cursor scope state = some reading) ∧
        Reads factory log scope state places reading rest := by
  -- the reading goes on behind a nested scope, which is not the tail of the chain, so the induction is on
  -- the number of places
  induction size : places.length using Nat.strong_induction_on generalizing cursor places scope state with
  | _ bound ih =>
  have step {reading : Reading σ τ} (steps : ∀ fuel, places.length ≤ fuel →
      log.read factory (fuel + 1) cursor scope state = some reading) (fuel : Nat)
      (enough : bound < fuel) : log.read factory fuel cursor scope state = some reading := by
    obtain ⟨fuel, rfl⟩ := Nat.exists_eq_succ_of_ne_zero (Nat.ne_zero_of_lt enough)
    exact steps fuel (size ▸ Nat.le_of_lt_succ enough)
  cases places with
  | nil =>
      cases linked
      exact ⟨_, [], step fun fuel _ => rfl, .nil factory log scope state⟩
  | cons place places =>
      subst size
      obtain ⟨rfl, more⟩ := linked.next_at
      have filled_tail : ∀ place ∈ places.tail, log.intentAt place ≠ none :=
        fun place member => filled place (List.mem_of_mem_tail member)
      rcases entry_kinds log place with push | ⟨label, pop⟩ | plain
      · obtain ⟨inner, between, read, reads⟩ := ih places.length (Nat.lt_succ_self _) more filled_tail
          (Scope.opening (log.intentsAt places)) state rfl
        have shorter : between.tail.length < (place :: places).length := by
          rw [reads.split, List.length_cons, List.length_append, List.length_tail]
          omega
        have filled_behind : ∀ place ∈ between.tail.tail, log.intentAt place ≠ none := by
          intro place member
          refine filled place ?_
          rw [List.tail_cons, reads.split]
          exact List.mem_append_right _ (List.mem_of_mem_tail (List.mem_of_mem_tail member))
        have behind : Linked log.entries (log.following inner.closing) between.tail none := by
          rw [reads.split] at more
          rw [reads.closing]
          exact more.following
        obtain ⟨outer, rest, read', reads'⟩ := ih between.tail.length shorter behind filled_behind
          (scope.attach (log.labelOf inner.closing) inner.node) inner.state rfl
        refine ⟨inner.nest place outer, rest, step fun fuel enough => ?_, reads.nest push reads'⟩
        rw [read_push push, ← opening_eq more filled, read fuel enough, Option.bind_some,
          read' fuel (Nat.lt_of_lt_of_le shorter enough)]
        rfl
      · exact ⟨_, place :: places, step fun fuel _ => read_pop pop fuel, .pop pop places⟩
      · obtain ⟨reading, rest, read, reads⟩ := ih places.length (Nat.lt_succ_self _) more filled_tail
          (log.absorbAt factory place scope state).1 (log.absorbAt factory place scope state).2 rfl
        refine ⟨reading.visit place, rest, step fun fuel enough => ?_, reads.plain plain⟩
        rw [read_plain plain, read fuel enough]
        rfl

end Chain

/-! ### Live entries are read once -/

section Live

variable {log : TreeLog τ} {live : List (Nat × Intent τ)} {free : List Nat}

theorem Layout.filled (layout : Layout log live free) {place : Nat}
    (member : place ∈ live.map Prod.fst) : log.intentAt place ≠ none := by
  obtain ⟨⟨place, intent⟩, logged, rfl⟩ := List.mem_map.mp member
  obtain ⟨number, numbered⟩ := List.getElem?_of_mem logged
  obtain ⟨entry, found, _, content⟩ := layout.holds number place intent numbered
  have held : log.intentAt place = some intent := by
    unfold intentAt
    rw [Layout.entry_eq found, content]
  rw [held]
  exact Option.some_ne_none intent

/-- The live entries from a start on, which are no more than the arena has, and among which the head can
only be the first. -/
theorem Layout.chain_from (layout : Layout log live free) {start : Nat}
    (member : start ∈ places live) :
    ∃ behind, Linked log.entries (some start) (start :: behind) none ∧ (start :: behind).Nodup ∧
      (start :: behind).length ≤ log.entries.size ∧
        ∀ place ∈ behind, log.intentAt place ≠ none := by
  obtain ⟨before, behind, split⟩ := List.append_of_mem member
  have chain := layout.chain
  have apart := layout.apart.of_append_left
  rw [split] at chain apart
  obtain ⟨middle, _, rfl, further⟩ := linked_append.mp chain
  refine ⟨behind, ⟨rfl, further⟩, apart.of_append_right, ?_, fun place member => layout.filled ?_⟩
  · have length := congrArg List.length split
    rw [length_places, List.length_append] at length
    rw [layout.size]
    omega
  · have logged : live.map Prod.fst = (before ++ start :: behind).tail := congrArg List.tail split
    rw [logged]
    cases before with
    | nil => exact member
    | cons first more => exact List.mem_append_right more (List.mem_cons_of_mem start member)

end Live

/-- The entries from a start on are consumed once. The places that are read into the node, with those
that are left, are the live chain from the start on; of those that are left a reading looks at the first
only. -/
structure ConsumedOnce (factory : TreeFactory σ τ) (log : TreeLog τ) (start : Nat) (state : σ)
    (reading : Reading σ τ) (rest : List Nat) : Prop where
  chain : Linked log.entries (some start) (reading.inside ++ rest) none
  once : (reading.inside ++ rest).Nodup
  terminates : ∀ fuel, log.entries.size < fuel →
    log.construct factory fuel start state = some reading
  ends : Ends log reading.inside rest
  /-- The place of a `pop` is reported exactly if one ended the reading. -/
  closing : reading.closing = rest.head?
  /-- Each `push` that was looked at opened a scope, in their order. -/
  pushes : reading.nested.map NestedScope.push = reading.visits.filter log.opens
  handed : ∀ nested ∈ reading.nested, Handed log (reading.inside ++ rest) nested
  calls : ∀ fuel, log.entries.size < fuel → ∀ before,
    (log.construct factory.counted fuel start (state, before)).map Reading.state =
      some (reading.state,
        before + (1 + reading.visits.countP log.folds + reading.visits.countP log.opens))
  /-- What is left has no part in the node. -/
  alone : start ≠ 0 →
    Intent.construct factory (log.intentsAt reading.inside) state =
      (⟨reading.node, none⟩, reading.state)
  /-- The node is the one that the list of the intents is built into, in as many calls. -/
  built : start ≠ 0 →
    Intent.construct factory (follow log.entries log.entries.size (some start)) state =
      (⟨reading.node, log.remaining rest⟩, reading.state)
  built_calls : start ≠ 0 → ∀ before,
    (Intent.construct factory.counted (follow log.entries log.entries.size (some start))
      (state, before)).2 =
        (reading.state,
          before + (1 + reading.visits.countP log.folds + reading.visits.countP log.opens))

/-- On a log that went through whatever changes, with whatever intents, and from any of its live entries,
the head included, a node is built in finitely many steps that consume each entry at most once. -/
theorem entries_consumed_once {ρ : Type} {builder : TreeFactory ρ τ} {enabled : Bool}
    {nodes nodes' : ρ} {changes : List (Change τ)} {log : TreeLog τ}
    (history : History builder 0 (.new enabled) nodes changes log nodes') {start : Nat}
    (chained : OnChain log start) (factory : TreeFactory σ τ) (state : σ) :
    ∃ reading rest, ConsumedOnce factory log start state reading rest := by
  obtain ⟨live, free, layout⟩ := history.layout (layout_new enabled)
  rw [List.take_nil, List.nil_append] at layout
  have logged := layout.mem_of_onChain chained
  obtain ⟨behind, chain, apart, short, filled⟩ := layout.chain_from logged
  obtain ⟨reading, rest, read, reads⟩ :=
    exists_reads factory chain filled (log.openingAt (some start)) state
  have terminates (fuel : Nat) (enough : log.entries.size < fuel) :
      log.construct factory fuel start state = some reading :=
    read fuel (Nat.lt_of_le_of_lt short enough)
  have follows : follow log.entries log.entries.size (some start) = log.intentsAt (start :: behind) :=
    follow_eq_intentsAt chain short
  have opens : start ≠ 0 →
      Scope.opening (log.intentsAt (start :: behind)) = log.openingAt (some start) := by
    intro inner
    refine opening_eq chain fun place member => ?_
    obtain rfl | member := List.mem_cons.mp member
    · exact layout.filled ((List.mem_cons.mp logged).resolve_left inner)
    · exact filled place member
  refine ⟨reading, rest, ?_⟩
  constructor
  · rw [← reads.split]
    exact chain
  · rw [← reads.split]
    exact apart
  · exact terminates
  · exact reads.ends
  · exact reads.closing
  · exact reads.pushes
  · rw [← reads.split]
    exact reads.handed
  · intro fuel enough before
    unfold construct at terminates ⊢
    rw [read_counted, terminates fuel enough]
    simp only [Option.map_some, Reading.count, Reading.calls, Nat.add_assoc]
  · intro inner
    unfold Intent.construct
    rw [← reads.ends.opening, ← reads.split, opens inner]
    exact reads.alone
  · intro inner
    unfold Intent.construct
    rw [follows, opens inner]
    exact reads.whole
  · intro inner before
    obtain ⟨counted, rest', read', reads'⟩ :=
      exists_reads factory.counted chain filled (log.openingAt (some start)) (state, before)
    have same := (read' _ (Nat.lt_succ_self _)).symm.trans (read_counted _ _ _ state before)
    rw [read _ (Nat.lt_succ_self _), Option.map_some, Option.some.injEq] at same
    unfold Intent.construct
    rw [follows, opens inner, reads'.whole, same]
    simp only [Reading.count, Reading.calls, Nat.add_assoc]

/-- A log of a scope that is closed, a `pop` too many, and a scope that is not closed. -/
theorem entries_consumed_once_malformed :
    let log : TreeLog Nat :=
      [.push, .leftFold 1 ⟨0⟩, .pop ⟨1⟩, .pop ⟨2⟩, .push, .tag ⟨3⟩].foldl TreeLog.append (.new true)
    (∃ reading rest, ConsumedOnce TreeFactory.recording log 1 #[] reading rest ∧
      reading.inside = [1, 2, 3] ∧ reading.closing = some 4 ∧
      reading.nested = [⟨1, [2], some 3⟩] ∧ reading.state.size = 3) ∧
    ∃ reading rest, ConsumedOnce TreeFactory.recording log 5 #[] reading rest ∧
      reading.inside = [5, 6] ∧ reading.closing = none ∧
      reading.nested = [⟨5, [6], none⟩] ∧ reading.state.size = 2 := by
  intro log
  have opened : History TreeFactory.recording 0 (.new true) #[] _ _ #[] :=
    .next (.next (.next .start (.append .push) nofun) (.append (.leftFold 1 ⟨0⟩)) nofun)
      (.append (.pop ⟨1⟩)) nofun
  have history : History TreeFactory.recording 0 (.new true) #[] _ log #[] :=
    .next (.next (.next opened (.append (.pop ⟨2⟩)) nofun) (.append .push) nofun)
      (.append (.tag ⟨3⟩)) nofun
  have first : OnChain log 1 := .next .head rfl
  have fifth : OnChain log 5 := .next (.next (.next (.next first rfl) rfl) rfl) rfl
  constructor
  · obtain ⟨reading, rest, once⟩ := entries_consumed_once history first TreeFactory.recording #[]
    have evaluated : (log.construct TreeFactory.recording 8 1 #[]).map
        (fun reading => (reading.inside, reading.closing, reading.nested, reading.state.size)) =
          some ([1, 2, 3], some 4, [⟨1, [2], some 3⟩], 3) := rfl
    rw [once.terminates 8 (by decide)] at evaluated
    simp only [Option.map_some, Option.some.injEq, Prod.mk.injEq] at evaluated
    exact ⟨reading, rest, once, evaluated⟩
  · obtain ⟨reading, rest, once⟩ := entries_consumed_once history fifth TreeFactory.recording #[]
    have evaluated : (log.construct TreeFactory.recording 8 5 #[]).map
        (fun reading => (reading.inside, reading.closing, reading.nested, reading.state.size)) =
          some ([5, 6], none, [⟨5, [6], none⟩], 2) := rfl
    rw [once.terminates 8 (by decide)] at evaluated
    simp only [Option.map_some, Option.some.injEq, Prod.mk.injEq] at evaluated
    exact ⟨reading, rest, once, evaluated⟩

end Packrat.TreeLog
