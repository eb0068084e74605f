/-
The log in use, beside a plain list of intents. A client logs, takes marks and later gives up or
builds what lies after one of them; the list does the same by taking a prefix of its own. As long
as the client returns to no mark that was cut off, the two agree, and the arena of the log holds
one entry for the head and one for each intent of the longest list there ever was.
-/

import Mathlib.Data.List.Forall2
import Mathlib.Data.List.Induction
import Mathlib.Order.Bounds.Basic
import Packrat.Proofs.Tree.Growth

namespace Packrat.TreeLog

variable {σ τ : Type}

/-! ### Requests -/

/-- What is asked of a log. A mark is referred to by its place in the order in which marks were
taken. -/
inductive Request (τ : Type) where
  | append (intent : Intent τ)
  | link (label : Symbol) (child : Option τ)
  | mark
  | abort (taken : Nat)
  | commit (taken : Nat) (label : Symbol)
  | parseResult (start stop : Nat)
deriving DecidableEq, Repr

structure Session (σ τ : Type) where
  log : TreeLog τ
  marks : List LogMark
  trees : List τ
  state : σ

/-- A list of intents in use. In place of a mark stands the length of the list when it was taken, or
nothing once the list was cut below that length. -/
structure Draft (σ τ : Type) where
  intents : List (Intent τ)
  heights : List (Option Nat)
  latest : Option τ
  trees : List τ
  state : σ

namespace Session

def fresh (state : σ) : Session σ τ := ⟨.new true, [], [], state⟩

def answer? (factory : TreeFactory σ τ) (session : Session σ τ) : Request τ → Option (Session σ τ)
  | .append intent => some { session with log := session.log.append intent }
  | .link label child => some { session with log := session.log.link label child }
  | .mark => some { session with marks := session.marks ++ [session.log.mark] }
  | .abort taken =>
    session.marks[taken]?.map fun mark => { session with log := session.log.abort mark }
  | .commit taken label =>
    session.marks[taken]?.map fun mark =>
      let (log, state) := session.log.commit factory mark label session.state
      { session with log := log, state := state }
  | .parseResult start stop =>
    let (tree, log, state) := session.log.parseResult factory start stop session.state
    some { session with log := log, trees := session.trees ++ [tree], state := state }

def run (factory : TreeFactory σ τ) (requests : List (Request τ)) (state : σ) :
    Option (Session σ τ) :=
  requests.foldlM (answer? factory) (fresh state)

end Session

namespace Draft

def fresh (state : σ) : Draft σ τ := ⟨[], [], none, [], state⟩

/-- The length that a mark stands for, while the list is not cut below it. -/
def height? (draft : Draft σ τ) (taken : Nat) : Option Nat := draft.heights[taken]?.join

/-- Keep the first intents only, and the marks that stand for no more than these. -/
def cut (draft : Draft σ τ) (height : Nat) : Draft σ τ :=
  { draft with
    intents := draft.intents.take height
    heights := draft.heights.map (Option.filter fun number => decide (number ≤ height)) }

/-- Replace the intents that follow the first ones by the node that they build, if any do. -/
def commit (factory : TreeFactory σ τ) (draft : Draft σ τ) (height : Nat) (label : Symbol) :
    Draft σ τ :=
  match draft.intents.drop height with
  | [] => { draft.cut height with latest := none }
  | first :: rest =>
    let (built, state) := Intent.construct factory (first :: rest) draft.state
    { draft.cut height with
      intents := draft.intents.take height ++ [.link label (some built.node)]
      latest := some built.node
      state := state }

def answer? (factory : TreeFactory σ τ) (draft : Draft σ τ) : Request τ → Option (Draft σ τ)
  | .append intent => some { draft with intents := draft.intents ++ [intent] }
  | .link label child =>
    some { draft with intents := draft.intents ++ [.link label child], latest := child }
  | .mark => some { draft with heights := draft.heights ++ [some draft.intents.length] }
  | .abort taken => (draft.height? taken).map draft.cut
  | .commit taken label =>
    (draft.height? taken).map fun height => draft.commit factory height label
  | .parseResult start stop =>
    let (tree, state) := Intent.result factory start stop draft.intents draft.state
    some { draft.cut 0 with trees := draft.trees ++ [tree], state := state }

def run (factory : TreeFactory σ τ) (requests : List (Request τ)) (state : σ) :
    Option (Draft σ τ) :=
  requests.foldlM (answer? factory) (fresh state)

end Draft

/-! ### The size of the arena -/

section Size

variable {log : TreeLog τ} {live : List (Nat × Intent τ)} {free : List Nat} {mark : LogMark}

theorem Layout.length_lt (layout : Layout log live free) : log.length < log.entries.size := by
  rw [layout.length_eq, layout.size]
  omega

theorem size_abort (log : TreeLog τ) (mark : LogMark) :
    (log.abort mark).entries.size = log.entries.size := by
  unfold TreeLog.abort
  split
  · rfl
  · rw [size_linkEntry, size_linkEntry]

theorem Layout.length_abort (layout : Layout log live free) (marks : MarksLive live mark) :
    (log.abort mark).length = mark.number := by
  obtain ⟨_, aborted⟩ := layout.abort marks
  rw [aborted.length_eq, List.length_take, Nat.min_eq_left marks.number_le]

theorem Layout.length_append (layout : Layout log live free) (enabled : log.enabled = true)
    (intent : Intent τ) : (log.append intent).length = log.length + 1 := by
  obtain ⟨added, _, grown, content⟩ := layout.append intent
  rw [enabled] at content
  have single := congrArg List.length content
  rw [List.length_map] at single
  rw [grown.length_eq, layout.length_eq, List.length_append, single]
  rfl

/-- A new place is taken only while the list is at its longest. -/
theorem Layout.size_append (layout : Layout log live free) (enabled : log.enabled = true)
    (intent : Intent τ) :
    (log.append intent).entries.size = max log.entries.size (log.length + 2) := by
  have size := layout.size
  have first := layout.free_head
  rw [← layout.length_eq] at size
  unfold TreeLog.append
  rw [if_pos enabled]
  cases free with
  | nil =>
      rw [List.length_nil] at size
      simp only [first, List.head?_nil, size_linkEntry, Array.size_push]
      omega
  | cons index rest =>
      rw [List.length_cons] at size
      simp only [first, List.head?_cons, size_linkEntry, Array.size_setIfInBounds]
      omega

theorem link_eq (enabled : log.enabled = true) (label : Symbol) (child : Option τ) :
    log.link label child = { log with latestLinked := child }.append (.link label child) :=
  if_pos enabled

theorem Layout.length_link (layout : Layout log live free) (enabled : log.enabled = true)
    (label : Symbol) (child : Option τ) : (log.link label child).length = log.length + 1 := by
  rw [link_eq enabled]
  exact (layout.relatest child).length_append enabled (.link label child)

theorem Layout.size_link (layout : Layout log live free) (enabled : log.enabled = true)
    (label : Symbol) (child : Option τ) :
    (log.link label child).entries.size = max log.entries.size (log.length + 2) := by
  rw [link_eq enabled]
  exact (layout.relatest child).size_append enabled (.link label child)

/-- Building takes at most one entry where it gives up at least one. -/
theorem Layout.size_commit (layout : Layout log live free) (marks : MarksLive live mark)
    (enabled : log.enabled = true) (factory : TreeFactory σ τ) (label : Symbol) (state : σ) :
    (log.commit factory mark label state).1.entries.size = log.entries.size := by
  obtain ⟨free', aborted⟩ := layout.abort marks
  have still := (Extends.enabled_abort log mark).trans enabled
  unfold TreeLog.commit
  rw [if_pos enabled]
  cases intents : log.intentsAfter mark.index with
  | nil => exact size_abort log mark
  | cons first rest =>
      have given := congrArg List.length intents
      rw [layout.intentsAfter_eq marks, List.length_map, List.length_drop, List.length_cons] at given
      change ((log.abort mark).link label _).entries.size = log.entries.size
      rw [aborted.size_link still, size_abort, layout.length_abort marks, layout.size]
      omega

/-! ### The node attached last -/

theorem latestLinked_append (log : TreeLog τ) (intent : Intent τ) :
    (log.append intent).latestLinked = log.latestLinked := by
  unfold TreeLog.append
  split
  · split <;> rfl
  · rfl

theorem latestLinked_link (enabled : log.enabled = true) (label : Symbol) (child : Option τ) :
    (log.link label child).latestLinked = child := by
  rw [link_eq enabled, latestLinked_append]

theorem latestLinked_abort (log : TreeLog τ) (mark : LogMark) :
    (log.abort mark).latestLinked = log.latestLinked := by
  unfold TreeLog.abort
  split <;> rfl

end Size

/-! ### Agreement -/

def Stands (live : List (Nat × Intent τ)) (mark : LogMark) (height : Option Nat) : Prop :=
  ∀ number, height = some number → mark.number = number ∧ MarksLive live mark

theorem Stands.cut {live : List (Nat × Intent τ)} {mark : LogMark} {height : Option Nat}
    (stands : Stands live mark height) (kept : Nat) (added : List (Nat × Intent τ)) :
    Stands (live.take kept ++ added) mark (height.filter fun number => decide (number ≤ kept)) := by
  intro number left
  obtain ⟨same, below⟩ := Option.filter_eq_some_iff.mp left
  obtain ⟨numbered, marks⟩ := stands number same
  have below := of_decide_eq_true below
  exact ⟨numbered, marks.keep (by omega) added⟩

theorem Stands.grow {live : List (Nat × Intent τ)} {mark : LogMark} {height : Option Nat}
    (stands : Stands live mark height) (added : List (Nat × Intent τ)) :
    Stands (live ++ added) mark height := by
  intro number same
  obtain ⟨numbered, marks⟩ := stands number same
  have kept := marks.keep marks.number_le added
  rw [List.take_length] at kept
  exact ⟨numbered, kept⟩

/-- The log is laid out as the list of intents, and every mark stands for its length. -/
structure Mirrors (session : Session σ τ) (draft : Draft σ τ) (live : List (Nat × Intent τ))
    (free : List Nat) : Prop where
  layout : session.log.Layout live free
  enabled : session.log.enabled = true
  intents : live.map Prod.snd = draft.intents
  marks : List.Forall₂ (Stands live) session.marks draft.heights
  latest : session.log.latestLinked = draft.latest
  trees : session.trees = draft.trees
  state : session.state = draft.state

theorem forall₂_getElem? {α β : Type} {Related : α → β → Prop} {as : List α} {bs : List β}
    (related : List.Forall₂ Related as bs) {index : Nat} {b : β} (found : bs[index]? = some b) :
    ∃ a, as[index]? = some a ∧ Related a b := by
  induction related generalizing index with
  | nil => cases found
  | cons head _ ih =>
      cases index with
      | zero => cases found; exact ⟨_, rfl, head⟩
      | succ index => exact ih found

namespace Mirrors

variable {session : Session σ τ} {draft : Draft σ τ} {live : List (Nat × Intent τ)}
  {free free' : List Nat} {log' : TreeLog τ} {added : List (Nat × Intent τ)}

theorem length_eq (mirrors : Mirrors session draft live free) :
    session.log.length = draft.intents.length := by
  rw [mirrors.layout.length_eq, ← mirrors.intents, List.length_map]

theorem mark_of_height (mirrors : Mirrors session draft live free) {taken height : Nat}
    (found : draft.height? taken = some height) :
    ∃ mark, session.marks[taken]? = some mark ∧ mark.number = height ∧ MarksLive live mark := by
  obtain ⟨mark, here, stands⟩ := forall₂_getElem? mirrors.marks (Option.join_eq_some_iff.mp found)
  exact ⟨mark, here, stands height rfl⟩

/-- More is logged. -/
theorem grow (mirrors : Mirrors session draft live free)
    (layout : log'.Layout (live ++ added) free') (enabled : log'.enabled = true)
    {more : List (Intent τ)} (content : added.map Prod.snd = more) {latest : Option τ}
    (linked : log'.latestLinked = latest) :
    Mirrors { session with log := log' }
      { draft with intents := draft.intents ++ more, latest := latest } (live ++ added) free' where
  layout := layout
  enabled := enabled
  intents := by rw [List.map_append, mirrors.intents, content]
  marks := mirrors.marks.imp fun _ _ stands => stands.grow added
  latest := linked
  trees := mirrors.trees
  state := mirrors.state

/-- All but the first entries are given up before more is logged. -/
theorem cut (mirrors : Mirrors session draft live free) {kept : Nat}
    (layout : log'.Layout (live.take kept ++ added) free') (enabled : log'.enabled = true)
    {more : List (Intent τ)} (content : added.map Prod.snd = more) {latest : Option τ}
    (linked : log'.latestLinked = latest) {trees trees' : List τ} (built : trees = trees')
    {state state' : σ} (same : state = state') :
    Mirrors { session with log := log', trees := trees, state := state }
      { draft.cut kept with
        intents := draft.intents.take kept ++ more
        latest := latest
        trees := trees'
        state := state' }
      (live.take kept ++ added) free' where
  layout := layout
  enabled := enabled
  intents := by rw [List.map_append, List.map_take, mirrors.intents, content]
  marks := List.forall₂_map_right_iff.mpr
    (mirrors.marks.imp fun _ _ stands => stands.cut kept added)
  latest := linked
  trees := built
  state := same

theorem mark (mirrors : Mirrors session draft live free) :
    Mirrors { session with marks := session.marks ++ [session.log.mark] }
      { draft with heights := draft.heights ++ [some draft.intents.length] } live free where
  layout := mirrors.layout
  enabled := mirrors.enabled
  intents := mirrors.intents
  marks := by
    refine List.rel_append mirrors.marks (.cons ?_ .nil)
    intro number same
    cases same
    exact ⟨mirrors.length_eq, mirrors.layout.mark_live⟩
  latest := mirrors.latest
  trees := mirrors.trees
  state := mirrors.state

/-- All but the first entries are given up. -/
theorem abort (mirrors : Mirrors session draft live free) {mark : LogMark}
    (marks : MarksLive live mark) {trees trees' : List τ} (built : trees = trees')
    {state state' : σ} (same : state = state') :
    ∃ live' free', Mirrors
      { session with log := session.log.abort mark, trees := trees, state := state }
      { draft.cut mark.number with trees := trees', state := state' } live' free' := by
  obtain ⟨free', aborted⟩ := mirrors.layout.abort marks
  rw [← List.append_nil (live.take mark.number)] at aborted
  have mirrors' := mirrors.cut aborted
    ((Extends.enabled_abort session.log mark).trans mirrors.enabled) rfl
    ((latestLinked_abort session.log mark).trans mirrors.latest) built same
  rw [List.map_nil, List.append_nil] at mirrors'
  exact ⟨_, _, mirrors'⟩

theorem size_abort (mirrors : Mirrors session draft live free) {mark : LogMark}
    (marks : MarksLive live mark) : (session.log.abort mark).entries.size =
      max session.log.entries.size ((session.log.abort mark).length + 1) := by
  obtain ⟨_, aborted⟩ := mirrors.layout.abort marks
  have within := aborted.length_lt
  rw [TreeLog.size_abort] at within ⊢
  exact (Nat.max_eq_left within).symm

/-- What lies after a mark is built. -/
theorem commit (mirrors : Mirrors session draft live free) (factory : TreeFactory σ τ)
    {mark : LogMark} (marks : MarksLive live mark) (label : Symbol) :
    ∃ live' free', Mirrors
      { session with
        log := (session.log.commit factory mark label session.state).1
        state := (session.log.commit factory mark label session.state).2 }
      (draft.commit factory mark.number label) live' free' := by
  have enabled := mirrors.enabled
  have after : session.log.intentsAfter mark.index = draft.intents.drop mark.number := by
    rw [mirrors.layout.intentsAfter_eq marks, List.map_drop, mirrors.intents]
  unfold TreeLog.commit Draft.commit
  rw [if_pos enabled, after]
  cases draft.intents.drop mark.number with
  | nil =>
      obtain ⟨live', free', mirrors'⟩ := mirrors.abort marks mirrors.trees mirrors.state
      exact ⟨live', free', mirrors'.layout.relatest none, mirrors'.enabled, mirrors'.intents,
        mirrors'.marks, rfl, mirrors'.trees, mirrors'.state⟩
  | cons first rest =>
      obtain ⟨free', aborted⟩ := mirrors.layout.abort marks
      have still := (Extends.enabled_abort session.log mark).trans enabled
      obtain ⟨added, free'', linked, content⟩ := aborted.link label
        (some (Intent.construct factory (first :: rest) session.state).1.node)
      rw [still] at content
      rw [← mirrors.state]
      exact ⟨_, _, mirrors.cut linked ((Extends.link _ _ _).1.trans still) content
        (latestLinked_link still _ _) mirrors.trees rfl⟩

/-- The tree of the whole log is built. -/
theorem parseResult (mirrors : Mirrors session draft live free) (factory : TreeFactory σ τ)
    (start stop : Nat) :
    let built := Intent.result factory start stop session.log.intents session.state
    let drafted := Intent.result factory start stop draft.intents draft.state
    ∃ live' free', Mirrors
      { session with
        log := session.log.abort startMark
        trees := session.trees ++ [built.1]
        state := built.2 }
      { draft.cut 0 with
        trees := draft.trees ++ [drafted.1]
        state := drafted.2 } live' free' := by
  intro built drafted
  have same : built = drafted := by
    change Intent.result factory start stop _ _ = Intent.result factory start stop _ _
    rw [mirrors.layout.intents_eq, mirrors.intents, mirrors.state]
  rw [same, mirrors.trees]
  exact mirrors.abort (Layout.startMark_live live) rfl rfl

/-- Where the list answers a request, so does the log, and its arena grows only to hold a list that
is longer than all before. -/
theorem step (mirrors : Mirrors session draft live free) {factory : TreeFactory σ τ}
    {request : Request τ} {draft' : Draft σ τ}
    (answered : draft.answer? factory request = some draft') :
    ∃ session' live' free', session.answer? factory request = some session' ∧
      Mirrors session' draft' live' free' ∧
      session'.log.entries.size = max session.log.entries.size (session'.log.length + 1) := by
  have layout := mirrors.layout
  have enabled := mirrors.enabled
  cases request with
  | append intent =>
      cases answered
      obtain ⟨added, free', grown, content⟩ := layout.append intent
      rw [enabled] at content
      refine ⟨_, _, _, rfl, mirrors.grow grown ?_ content ?_, ?_⟩
      · exact (Extends.append session.log intent).1.trans enabled
      · exact (latestLinked_append session.log intent).trans mirrors.latest
      · rw [layout.size_append enabled, layout.length_append enabled]
  | link label child =>
      cases answered
      obtain ⟨added, free', grown, content⟩ := layout.link label child
      rw [enabled] at content
      refine ⟨_, _, _, rfl, mirrors.grow grown ?_ content (latestLinked_link enabled label child), ?_⟩
      · exact (Extends.link session.log label child).1.trans enabled
      · rw [layout.size_link enabled, layout.length_link enabled]
  | mark =>
      cases answered
      exact ⟨_, _, _, rfl, mirrors.mark, (Nat.max_eq_left layout.length_lt).symm⟩
  | abort taken =>
      obtain ⟨height, found, rfl⟩ := Option.map_eq_some_iff.mp answered
      obtain ⟨mark, here, rfl, marks⟩ := mirrors.mark_of_height found
      obtain ⟨live', free', mirrors'⟩ := mirrors.abort marks mirrors.trees mirrors.state
      have applied := congrArg (Option.map fun mark : LogMark =>
        ({ session with log := session.log.abort mark } : Session σ τ)) here
      exact ⟨_, live', free', applied, mirrors', mirrors.size_abort marks⟩
  | commit taken label =>
      obtain ⟨height, found, rfl⟩ := Option.map_eq_some_iff.mp answered
      obtain ⟨mark, here, rfl, marks⟩ := mirrors.mark_of_height found
      obtain ⟨live', free', mirrors'⟩ := mirrors.commit factory marks label
      have applied : session.answer? factory (.commit taken label) = some _ :=
        congrArg (Option.map _) here
      refine ⟨_, live', free', applied, mirrors', ?_⟩
      have within := mirrors'.layout.length_lt
      rw [layout.size_commit marks enabled] at within ⊢
      exact (Nat.max_eq_left within).symm
  | parseResult start stop =>
      cases answered
      obtain ⟨live', free', mirrors'⟩ := mirrors.parseResult factory start stop
      exact ⟨_, live', free', rfl, mirrors', mirrors.size_abort (Layout.startMark_live live)⟩

end Mirrors

/-! ### Runs -/

def Session.lengths (factory : TreeFactory σ τ) (requests : List (Request τ)) (state : σ) :
    Set Nat :=
  {length | ∃ done ahead session, done ++ ahead = requests ∧
    Session.run factory done state = some session ∧ session.log.length = length}

theorem Session.lengths_concat {factory : TreeFactory σ τ} {requests : List (Request τ)} {state : σ}
    {request : Request τ} {session : Session σ τ}
    (answered : Session.run factory (requests ++ [request]) state = some session) :
    Session.lengths factory (requests ++ [request]) state =
      insert session.log.length (Session.lengths factory requests state) := by
  ext length
  constructor
  · rintro ⟨done, ahead, session', split, before, same⟩
    rcases List.eq_nil_or_concat ahead with rfl | ⟨ahead', last, rfl⟩
    · rw [List.append_nil] at split
      rw [split, answered] at before
      cases before
      exact .inl same.symm
    · rw [List.concat_eq_append, ← List.append_assoc] at split
      exact .inr ⟨done, ahead', session', (List.append_inj' split rfl).1, before, same⟩
  · rintro (rfl | ⟨done, ahead, session', split, before, same⟩)
    · exact ⟨_, [], session, List.append_nil _, answered, rfl⟩
    · exact ⟨done, ahead ++ [request], session', by rw [← List.append_assoc, split], before, same⟩

theorem Session.run_concat {factory : TreeFactory σ τ} {requests : List (Request τ)} {state : σ}
    {session session' : Session σ τ} {request : Request τ}
    (before : Session.run factory requests state = some session)
    (answered : session.answer? factory request = some session') :
    Session.run factory (requests ++ [request]) state = some session' := by
  unfold Session.run at before ⊢
  rw [List.foldlM_append, before]
  change (session.answer? factory request >>= pure) = some session'
  rw [answered]
  rfl

/-- The induction is on the requests from the last one backwards, so that the longest list so far is
known when a request is answered. -/
theorem run_mirrors (factory : TreeFactory σ τ) (requests : List (Request τ)) (state : σ)
    {draft : Draft σ τ} (answered : Draft.run factory requests state = some draft) :
    ∃ session live free, Session.run factory requests state = some session ∧
      Mirrors session draft live free ∧
      IsGreatest (Session.lengths factory requests state) (session.log.entries.size - 1) := by
  induction requests using List.reverseRecOn generalizing draft with
  | nil =>
      cases answered
      refine ⟨_, [], [], rfl, ⟨layout_new true, rfl, rfl, .nil, rfl, rfl, rfl⟩, ?_, ?_⟩
      · exact ⟨[], [], _, rfl, rfl, rfl⟩
      · rintro length ⟨done, ahead, session, split, before, same⟩
        obtain ⟨rfl, rfl⟩ := List.append_eq_nil_iff.mp split
        cases before
        exact Nat.le_of_eq same.symm
  | append_singleton requests request ih =>
      unfold Draft.run at answered
      rw [List.foldlM_append, Option.bind_eq_bind, Option.bind_eq_some_iff] at answered
      obtain ⟨middle, before, last⟩ := answered
      obtain ⟨session, live, free, run, mirrors, greatest⟩ := ih before
      change (middle.answer? factory request >>= pure) = some draft at last
      rw [bind_pure] at last
      obtain ⟨session', live', free', applied, mirrors', size⟩ := mirrors.step last
      have run' := Session.run_concat run applied
      refine ⟨session', live', free', run', mirrors', ?_⟩
      have within := mirrors.layout.length_lt
      have room : session'.log.entries.size - 1 =
          max session'.log.length (session.log.entries.size - 1) := by omega
      rw [Session.lengths_concat run', room]
      exact greatest.insert _

/-- The log agrees with the plain list of intents: followed from the head, its entries hold the
intents of the list in order, numbered without gaps; the free entries are a chain of their own; and
the arena has room for the head and the longest list there was, no more. -/
theorem session_refines_draft (factory : TreeFactory σ τ) (requests : List (Request τ)) (state : σ)
    {draft : Draft σ τ} (answered : Draft.run factory requests state = some draft) :
    ∃ session live free, Session.run factory requests state = some session ∧
      session.log.Layout live free ∧ live.map Prod.snd = draft.intents ∧
      session.log.intents = draft.intents ∧ session.log.length = draft.intents.length ∧
      session.log.entries.size = 1 + session.log.length + session.log.freeLength ∧
      IsGreatest (Session.lengths factory requests state) (session.log.entries.size - 1) ∧
      session.log.latestLinked = draft.latest ∧ session.trees = draft.trees ∧
      session.state = draft.state := by
  obtain ⟨session, live, free, run, mirrors, greatest⟩ := run_mirrors factory requests state answered
  have layout := mirrors.layout
  refine ⟨session, live, free, run, layout, mirrors.intents, ?_, mirrors.length_eq, ?_, greatest,
    mirrors.latest, mirrors.trees, mirrors.state⟩
  · rw [layout.intents_eq, mirrors.intents]
  · rw [layout.size, layout.length_eq, layout.freeLength, Nat.add_comm 1]

/-- Marks taken one inside the other, with entries given up, used again and built into a node. -/
def nestedRequests : List (Request Nat) :=
  [.append (.begin 0), .mark, .append (.begin 1), .append (.capture 2), .mark, .append .push,
    .append (.tag .null), .abort 1, .append (.capture 4), .commit 0 .null, .append (.capture 6)]

theorem session_refines_draft_nested :
    ∃ session live free,
      Session.run TreeFactory.recording nestedRequests #[] = some session ∧
      session.log.Layout live free ∧
      session.log.intents = [.begin 0, .link .null (some 0), .capture 6] ∧
      session.log.entries.size = 1 + session.log.length + session.log.freeLength ∧
      IsGreatest (Session.lengths TreeFactory.recording nestedRequests #[])
        (session.log.entries.size - 1) := by
  have answered : Draft.run TreeFactory.recording nestedRequests #[] =
      some ⟨[.begin 0, .link .null (some 0), .capture 6], [some 1, none], some 0, [],
        #[⟨.null, 1, 4, [], none⟩]⟩ := rfl
  obtain ⟨session, live, free, run, layout, _, intents, _, size, greatest, _⟩ :=
    session_refines_draft TreeFactory.recording nestedRequests #[] answered
  exact ⟨session, live, free, run, layout, intents, size, greatest⟩

end Packrat.TreeLog
