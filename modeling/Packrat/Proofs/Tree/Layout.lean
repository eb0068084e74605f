/-
The layout of the log. The live entries are chained from the head in the order of their numbers,
the given up ones from the first free one, and every place of the arena is in one of the two
chains. A mark is live as long as its entry is in the first chain under its number, and it stays so
while nothing is given up below it: an entry that is used again has been behind every such mark.
-/

import Mathlib.Data.List.Nodup
import Packrat.Tree.Log

namespace Packrat.TreeLog

variable {σ τ : Type}

/-! ### Chains -/

/-- The entries lead from one place to the next, from `start` over the places to `stop`. -/
def Linked (entries : Array (LogEntry τ)) : (start : Option Nat) → List Nat → (stop : Option Nat) → Prop
  | start, [], stop => start = stop
  | start, place :: rest, stop =>
    start = some place ∧ ∃ entry, entries[place]? = some entry ∧ Linked entries entry.next rest stop

section

variable {entries entries' : Array (LogEntry τ)} {start middle stop stop' : Option Nat}
  {places first second : List Nat} {place index : Nat}

theorem getElem?_linkEntry (entries : Array (LogEntry τ)) (place index : Nat)
    (next : Option Nat) :
    (linkEntry entries place next)[index]? =
      if place = index then entries[index]?.map fun entry => { entry with next := next }
      else entries[index]? := by
  unfold linkEntry
  exact Array.getElem?_modify

theorem size_linkEntry (entries : Array (LogEntry τ)) (place : Nat) (next : Option Nat) :
    (linkEntry entries place next).size = entries.size := by
  unfold linkEntry
  exact Array.size_modify

theorem linked_append : Linked entries start (first ++ second) stop ↔
    ∃ middle, Linked entries start first middle ∧ Linked entries middle second stop := by
  induction first generalizing start with
  | nil =>
      constructor
      · intro linked
        exact ⟨start, rfl, linked⟩
      · rintro ⟨middle, rfl, linked⟩
        exact linked
  | cons place rest ih =>
      constructor
      · rintro ⟨leads, entry, found, linked⟩
        obtain ⟨middle, before, after⟩ := ih.mp linked
        exact ⟨middle, ⟨leads, entry, found, before⟩, after⟩
      · rintro ⟨middle, ⟨leads, entry, found, before⟩, after⟩
        exact ⟨leads, entry, found, ih.mpr ⟨middle, before, after⟩⟩

theorem Linked.congr (linked : Linked entries start places stop)
    (same : ∀ place ∈ places, entries'[place]? = entries[place]?) :
    Linked entries' start places stop := by
  induction places generalizing start with
  | nil => exact linked
  | cons place rest ih =>
      obtain ⟨leads, entry, found, linked⟩ := linked
      refine ⟨leads, entry, ?_, ih linked fun other member => same other (List.mem_cons_of_mem _ member)⟩
      rw [same place List.mem_cons_self, found]

theorem Linked.within (linked : Linked entries start places stop) :
    ∀ place ∈ places, place < entries.size := by
  induction places generalizing start with
  | nil => intro place member; cases member
  | cons first rest ih =>
      obtain ⟨_, entry, found, linked⟩ := linked
      intro place member
      rcases List.mem_cons.mp member with rfl | member
      · exact (Array.getElem?_eq_some_iff.mp found).1
      · exact ih linked place member

theorem Linked.last (linked : Linked entries start (places ++ [place]) stop) :
    ∃ entry, entries[place]? = some entry ∧ entry.next = stop := by
  obtain ⟨middle, _, _, entry, found, next⟩ := linked_append.mp linked
  exact ⟨entry, found, next⟩

theorem Linked.relink (linked : Linked entries start (places ++ [place]) stop)
    (apart : place ∉ places) (stop' : Option Nat) :
    Linked (linkEntry entries place stop') start (places ++ [place]) stop' := by
  obtain ⟨middle, before, leads, entry, found, _⟩ := linked_append.mp linked
  refine linked_append.mpr ⟨middle, before.congr fun other member => ?_, leads,
    { entry with next := stop' }, ?_, rfl⟩
  · have other_place : place ≠ other := by
      rintro rfl
      exact apart member
    rw [getElem?_linkEntry, if_neg other_place]
  · rw [getElem?_linkEntry, if_pos rfl, found]
    rfl

/-- A chain is cut behind one of its entries, and the rest leads on to a second chain. -/
theorem Linked.splice {before dropped free : List Nat} {index last : Nat} {head : Option Nat}
    (chain : Linked entries start (before ++ [index] ++ (dropped ++ [last])) none)
    (spare : Linked entries head free none)
    (apart : (before ++ [index] ++ (dropped ++ [last]) ++ free).Nodup) :
    ∃ entry, entries[index]? = some entry ∧
      Linked (linkEntry (linkEntry entries last head) index none) start (before ++ [index]) none ∧
      Linked (linkEntry (linkEntry entries last head) index none) entry.next
        (dropped ++ [last] ++ free) none := by
  obtain ⟨middle, kept, given⟩ := linked_append.mp chain
  obtain ⟨entry, found, next⟩ := kept.last
  -- the three chains share no place, so each of the two links is changed for one of them only
  have live_apart := List.nodup_append.mp (List.nodup_append.mp apart).1
  have free_apart := (List.nodup_append.mp apart).2.2
  have index_apart := List.nodup_append.mp live_apart.1
  have last_apart := List.nodup_append.mp live_apart.2.1
  have index_kept : index ∈ before ++ [index] := List.mem_append_right _ List.mem_cons_self
  have last_given : last ∈ dropped ++ [last] := List.mem_append_right _ List.mem_cons_self
  let cut := linkEntry entries last head
  have cut_of_kept : ∀ other ∈ before ++ [index], cut[other]? = entries[other]? := by
    intro other member
    rw [getElem?_linkEntry, if_neg (live_apart.2.2 other member _ last_given).symm]
  have cut_of_free : ∀ other ∈ free, cut[other]? = entries[other]? := by
    intro other member
    rw [getElem?_linkEntry, if_neg (free_apart _ (List.mem_append_right _ last_given) other member)]
  have index_of_given : ∀ other ∈ dropped ++ [last], (linkEntry cut index none)[other]? =
      cut[other]? := by
    intro other member
    rw [getElem?_linkEntry, if_neg (live_apart.2.2 _ index_kept other member)]
  have index_of_free : ∀ other ∈ free, (linkEntry cut index none)[other]? = cut[other]? := by
    intro other member
    rw [getElem?_linkEntry, if_neg (free_apart _ (List.mem_append_left _ index_kept) other member)]
  refine ⟨entry, found, ?_, linked_append.mpr ⟨head, ?_, ?_⟩⟩
  · exact (kept.congr cut_of_kept).relink
      (fun member => index_apart.2.2 _ member _ List.mem_cons_self rfl) none
  · rw [next]
    exact (given.relink (fun member => last_apart.2.2 _ member _ List.mem_cons_self rfl)
      head).congr index_of_given
  · exact (spare.congr cut_of_free).congr index_of_free

end

def Holds (entries : Array (LogEntry τ)) (place number : Nat) (intent : Option (Intent τ)) : Prop :=
  ∃ entry, entries[place]? = some entry ∧ entry.number = number ∧ entry.intent = intent

theorem Holds.linkEntry {entries : Array (LogEntry τ)} {place number : Nat}
    {intent : Option (Intent τ)} (holds : Holds entries place number intent) (index : Nat)
    (next : Option Nat) : Holds (linkEntry entries index next) place number intent := by
  obtain ⟨entry, found, numbered, content⟩ := holds
  by_cases same : index = place
  · refine ⟨{ entry with next := next }, ?_, numbered, content⟩
    rw [getElem?_linkEntry, if_pos same, found]
    rfl
  · refine ⟨entry, ?_, numbered, content⟩
    rw [getElem?_linkEntry, if_neg same, found]

/-! ### Nodes of intents -/

def nodeOf (factory : TreeFactory σ τ) (intents : List (Intent τ)) (state : σ) : Option τ :=
  match intents with
  | [] => none
  | first :: rest => some (Intent.construct factory (first :: rest) state).1.node

def attached (label : Symbol) : Option τ → List (Intent τ)
  | none => []
  | some node => [.link label (some node)]

/-- The node that was built last is remembered, also that there was none. -/
theorem latestLinked_commit {factory : TreeFactory σ τ} {log : TreeLog τ} {mark : LogMark}
    {label : Symbol} {state : σ} (enabled : log.enabled = true) :
    (log.commit factory mark label state).1.latestLinked =
      nodeOf factory (log.intentsAfter mark.index) state := by
  have still : (log.abort mark).enabled = true := by
    unfold TreeLog.abort
    split <;> exact enabled
  unfold TreeLog.commit
  rw [if_pos enabled]
  cases log.intentsAfter mark.index with
  | nil => rfl
  | cons first rest =>
      simp only [TreeLog.link, still, if_true, TreeLog.append]
      split <;> rfl

/-! ### The layout -/

def places (live : List (Nat × Intent τ)) : List Nat := 0 :: live.map Prod.fst

/-- The log has these live entries, with their places, and these free places. -/
structure Layout (log : TreeLog τ) (live : List (Nat × Intent τ)) (free : List Nat) : Prop where
  chain : Linked log.entries (some 0) (places live) none
  spare : Linked log.entries log.free free none
  apart : (places live ++ free).Nodup
  last : (places live).getLast? = some log.last
  head : Holds log.entries 0 0 none
  holds : ∀ number place intent, live[number]? = some (place, intent) →
    Holds log.entries place (number + 1) (some intent)
  size : log.entries.size = live.length + 1 + free.length
  freeLength : log.freeLength = free.length

def MarksLive (live : List (Nat × Intent τ)) (mark : LogMark) : Prop :=
  (places live)[mark.number]? = some mark.index

theorem length_places (live : List (Nat × Intent τ)) : (places live).length = live.length + 1 := by
  unfold places
  rw [List.length_cons, List.length_map]

theorem places_append (live more : List (Nat × Intent τ)) :
    places (live ++ more) = places live ++ more.map Prod.fst := by
  unfold places
  rw [List.map_append, List.cons_append]

theorem places_take (live : List (Nat × Intent τ)) (count : Nat) :
    places (live.take count) = (places live).take (count + 1) := by
  unfold places
  rw [List.map_take, List.take_succ_cons]

theorem MarksLive.number_le {live : List (Nat × Intent τ)} {mark : LogMark}
    (marks : MarksLive live mark) : mark.number ≤ live.length := by
  have within := (List.getElem?_eq_some_iff.mp marks).1
  rw [length_places] at within
  exact Nat.lt_succ_iff.mp within

/-- A mark stays live as long as nothing below it is given up. -/
theorem MarksLive.keep {live : List (Nat × Intent τ)} {mark : LogMark} {kept : Nat}
    (marks : MarksLive live mark) (below : mark.number ≤ kept) (added : List (Nat × Intent τ)) :
    MarksLive (live.take kept ++ added) mark := by
  have bound := marks.number_le
  have within : mark.number < (places (live.take kept)).length := by
    rw [length_places, List.length_take]
    omega
  unfold MarksLive
  rw [places_append, List.getElem?_append_left within, places_take,
    List.getElem?_take_of_lt (Nat.lt_succ_of_le below)]
  exact marks

theorem MarksLive.take_keep {live : List (Nat × Intent τ)} {mark : LogMark} {kept : Nat}
    (marks : MarksLive live mark) (below : mark.number ≤ kept) (added : List (Nat × Intent τ)) :
    (live.take kept ++ added).take mark.number = live.take mark.number := by
  have bound := marks.number_le
  have within : mark.number ≤ (live.take kept).length := by
    rw [List.length_take]
    omega
  rw [List.take_append_of_le_length within, List.take_take, Nat.min_eq_left below]

theorem layout_new (enabled : Bool) : Layout (new enabled : TreeLog τ) [] [] := by
  refine ⟨⟨rfl, head, rfl, rfl⟩, rfl, List.nodup_singleton 0, rfl, ⟨head, rfl, rfl, rfl⟩, ?_, rfl, rfl⟩
  intro number place intent found
  cases found

namespace Layout

variable {log : TreeLog τ} {live : List (Nat × Intent τ)} {free : List Nat} {mark : LogMark}

theorem split_last (layout : Layout log live free) :
    ∃ before, places live = before ++ [log.last] ∧ log.last ∉ before := by
  obtain ⟨before, split⟩ := List.getLast?_eq_some_iff.mp layout.last
  have apart := layout.apart.of_append_left
  rw [split, List.nodup_append] at apart
  exact ⟨before, split, fun member => apart.2.2 _ member _ List.mem_cons_self rfl⟩

theorem entry_eq {index : Nat} {entry : LogEntry τ} (found : log.entries[index]? = some entry) :
    log.entry index = entry := by
  unfold TreeLog.entry
  rw [Array.getD_eq_getD_getElem?, found]
  rfl

theorem number_at (layout : Layout log live free) {number place : Nat}
    (found : (places live)[number]? = some place) : (log.entry place).number = number := by
  cases number with
  | zero =>
      cases found
      obtain ⟨entry, found, numbered, _⟩ := layout.head
      rw [entry_eq found, numbered]
  | succ number =>
      unfold places at found
      rw [List.getElem?_cons_succ, List.getElem?_map, Option.map_eq_some_iff] at found
      obtain ⟨⟨place', intent⟩, found, rfl⟩ := found
      obtain ⟨entry, found, numbered, _⟩ := layout.holds number place' intent found
      rw [entry_eq found, numbered]

theorem last_at (layout : Layout log live free) : (places live)[live.length]? = some log.last := by
  have last := layout.last
  rw [List.getLast?_eq_getElem?, length_places, Nat.add_sub_cancel] at last
  exact last

theorem length_eq (layout : Layout log live free) : log.length = live.length :=
  layout.number_at layout.last_at

theorem free_head (layout : Layout log live free) : log.free = free.head? := by
  have spare := layout.spare
  cases free with
  | nil => exact spare
  | cons place rest => exact spare.1

theorem mark_live (layout : Layout log live free) : MarksLive live log.mark := by
  unfold MarksLive TreeLog.mark
  rw [layout.length_eq]
  exact layout.last_at

/-! ### Logging -/

/-- A new entry at the end of the chain, at a place that was not live. -/
theorem extend (layout : Layout log live free) {log' : TreeLog τ} {entries : Array (LogEntry τ)}
    {place : Nat} {intent : Intent τ} {free' : List Nat}
    (added : entries[place]? = some ⟨log.length + 1, some intent, none⟩)
    (kept : ∀ other, other ≠ place → other < log.entries.size →
      entries[other]? = log.entries[other]?)
    (apart : (places live ++ place :: free').Nodup)
    (spare : Linked log.entries log'.free free' none)
    (size : entries.size = live.length + 2 + free'.length)
    (freeLength : log'.freeLength = free'.length) (last : log'.last = place)
    (linked : log'.entries = linkEntry entries log.last (some place)) :
    Layout log' (live ++ [(place, intent)]) free' := by
  have fresh := (List.nodup_append.mp apart).2.2
  have not_live : ∀ other ∈ places live, other ≠ place :=
    fun other member => fresh other member place List.mem_cons_self
  have not_free : ∀ other ∈ free', other ≠ place := by
    rintro other member rfl
    exact (List.nodup_cons.mp (List.nodup_append.mp apart).2.1).1 member
  have last_live : log.last ∈ places live := List.mem_of_getLast? layout.last
  have kept_live : ∀ other ∈ places live, entries[other]? = log.entries[other]? :=
    fun other member => kept other (not_live other member) (layout.chain.within other member)
  have joined : places (live ++ [(place, intent)]) = places live ++ [place] :=
    places_append live [(place, intent)]
  constructor
  · rw [joined, linked]
    refine linked_append.mpr ⟨some place, ?_, rfl, ⟨log.length + 1, some intent, none⟩, ?_, rfl⟩
    · obtain ⟨before, split, apart'⟩ := layout.split_last
      have chain := layout.chain.congr kept_live
      rw [split] at chain ⊢
      exact chain.relink apart' (some place)
    · rw [getElem?_linkEntry, if_neg (not_live log.last last_live), added]
  · rw [linked]
    refine spare.congr fun other member => ?_
    have not_last : log.last ≠ other := by
      rintro rfl
      exact fresh log.last last_live log.last (List.mem_cons_of_mem _ member) rfl
    rw [getElem?_linkEntry, if_neg not_last]
    exact kept other (not_free other member) (spare.within other member)
  · rw [joined, List.append_assoc]
    exact apart
  · rw [joined, List.getLast?_concat, last]
  · obtain ⟨entry, found, content⟩ := layout.head
    have holds : Holds entries 0 0 none :=
      ⟨entry, (kept_live 0 List.mem_cons_self).trans found, content⟩
    rw [linked]
    exact holds.linkEntry log.last (some place)
  · intro number place' intent' found
    rw [linked]
    rcases Nat.lt_or_ge number live.length with below | beyond
    · rw [List.getElem?_append_left below] at found
      obtain ⟨entry, found', content⟩ := layout.holds number place' intent' found
      have member : place' ∈ places live :=
        List.mem_cons_of_mem _ (List.mem_map.mpr ⟨_, List.mem_of_getElem? found, rfl⟩)
      have holds : Holds entries place' (number + 1) (some intent') :=
        ⟨entry, (kept_live place' member).trans found', content⟩
      exact holds.linkEntry log.last (some place)
    · rw [List.getElem?_append_right beyond, List.getElem?_singleton] at found
      split at found
      · next first =>
          cases found
          have same : number = live.length := by omega
          have holds : Holds entries place (number + 1) (some intent) :=
            ⟨_, added, by rw [layout.length_eq, same], rfl⟩
          exact holds.linkEntry log.last (some place)
      · cases found
  · rw [linked, size_linkEntry, size, List.length_append]
    rfl
  · exact freeLength

/-- Logging adds the intent at the end, or nothing where the log is switched off. -/
theorem append (layout : Layout log live free) (intent : Intent τ) :
    ∃ added free', Layout (log.append intent) (live ++ added) free' ∧
      added.map Prod.snd = if log.enabled then [intent] else [] := by
  cases enabled : log.enabled with
  | false =>
      refine ⟨[], free, ?_, rfl⟩
      unfold TreeLog.append
      rw [enabled, List.append_nil]
      exact layout
  | true =>
      have first := layout.free_head
      cases free with
      | cons index free' =>
          obtain ⟨_, entry, found, spare⟩ := layout.spare
          have within : index < log.entries.size := (Array.getElem?_eq_some_iff.mp found).1
          let used := log.entries.setIfInBounds index ⟨log.length + 1, some intent, none⟩
          have added : used[index]? = some ⟨log.length + 1, some intent, none⟩ :=
            Array.getElem?_setIfInBounds_self_of_lt within
          have size : used.size = live.length + 2 + free'.length := by
            rw [Array.size_setIfInBounds, layout.size, List.length_cons]
            omega
          have freeLength : log.freeLength - 1 = free'.length := by
            rw [layout.freeLength, List.length_cons, Nat.add_sub_cancel]
          refine ⟨[(index, intent)], free', ?_, rfl⟩
          unfold TreeLog.append
          simp only [enabled, if_true, first, List.head?_cons, entry_eq found]
          exact layout.extend added
            (fun other differs _ => Array.getElem?_setIfInBounds_ne differs.symm) layout.apart spare
            size freeLength rfl rfl
      | nil =>
          let grown := log.entries.push ⟨log.length + 1, some intent, none⟩
          have added : grown[log.entries.size]? = some ⟨log.length + 1, some intent, none⟩ :=
            Array.getElem?_push_size
          have kept (other : Nat) (below : other < log.entries.size) :
              grown[other]? = log.entries[other]? := by
            rw [Array.getElem?_push_lt below, Array.getElem?_eq_getElem below]
          have apart : (places live ++ [log.entries.size]).Nodup := by
            refine List.nodup_append.mpr
              ⟨layout.apart.of_append_left, List.nodup_singleton _, ?_⟩
            rintro other member place single rfl
            rw [List.mem_singleton.mp single] at member
            exact absurd (layout.chain.within _ member) (Nat.lt_irrefl _)
          have size : grown.size = live.length + 2 := by
            rw [Array.size_push, layout.size]
            rfl
          refine ⟨[(log.entries.size, intent)], [], ?_, rfl⟩
          unfold TreeLog.append
          simp only [enabled, if_true, first]
          exact layout.extend added (fun other _ below => kept other below) apart rfl size
            layout.freeLength rfl rfl

theorem relatest (layout : Layout log live free) (child : Option τ) :
    Layout { log with latestLinked := child } live free :=
  ⟨layout.chain, layout.spare, layout.apart, layout.last, layout.head, layout.holds, layout.size,
    layout.freeLength⟩

theorem link (layout : Layout log live free) (label : Symbol) (child : Option τ) :
    ∃ added free', Layout (log.link label child) (live ++ added) free' ∧
      added.map Prod.snd = if log.enabled then [.link label child] else [] := by
  cases enabled : log.enabled with
  | false =>
      refine ⟨[], free, ?_, rfl⟩
      unfold TreeLog.link
      rw [enabled, List.append_nil]
      exact layout
  | true =>
      obtain ⟨added, free', grown, content⟩ := (layout.relatest child).append (.link label child)
      rw [enabled] at content
      refine ⟨added, free', ?_, content⟩
      unfold TreeLog.link
      rw [if_pos enabled]
      exact grown

/-! ### Undoing -/

theorem split_mark (marks : MarksLive live mark) :
    ∃ before, places (live.take mark.number) = before ++ [mark.index] ∧
      places live = before ++ [mark.index] ++ (live.drop mark.number).map Prod.fst := by
  have upto : places (live.take mark.number) = (places live).take mark.number ++ [mark.index] := by
    rw [places_take, List.take_add_one, marks]
    rfl
  refine ⟨(places live).take mark.number, upto, ?_⟩
  rw [← upto, ← places_append, List.take_append_drop]

theorem take_of_last (layout : Layout log live free) (marks : MarksLive live mark)
    (last : mark.index = log.last) : live.take mark.number = live := by
  have numbered := layout.number_at marks
  rw [last, layout.number_at layout.last_at] at numbered
  rw [← numbered, List.take_length]

/-- The last entry is given up unless it is marked. -/
theorem dropped_last (layout : Layout log live free) (marks : MarksLive live mark)
    (other : mark.index ≠ log.last) :
    ∃ dropped, (live.drop mark.number).map Prod.fst = dropped ++ [log.last] := by
  obtain ⟨before, _, split⟩ := split_mark marks
  have tail := layout.last
  rw [split] at tail
  rcases List.eq_nil_or_concat ((live.drop mark.number).map Prod.fst) with none | ⟨init, place, more⟩
  · rw [none, List.append_nil, List.getLast?_concat, Option.some.injEq] at tail
    exact absurd tail other
  · rw [List.concat_eq_append] at more
    rw [more, ← List.append_assoc, List.getLast?_concat, Option.some.injEq] at tail
    rw [tail] at more
    exact ⟨init, more⟩

/-- Giving up what lies after a live mark leaves what lies up to it. -/
theorem abort (layout : Layout log live free) (marks : MarksLive live mark) :
    ∃ free', Layout (log.abort mark) (live.take mark.number) free' := by
  by_cases last : mark.index = log.last
  · refine ⟨free, ?_⟩
    unfold TreeLog.abort
    rw [if_pos last, layout.take_of_last marks last]
    exact layout
  · obtain ⟨before, upto, split⟩ := split_mark marks
    obtain ⟨dropped, ends⟩ := layout.dropped_last marks last
    rw [ends] at split
    have apart := layout.apart
    have chain := layout.chain
    rw [split] at apart chain
    obtain ⟨entry, found, kept, given⟩ := chain.splice layout.spare apart
    have lengths := congrArg List.length ends
    rw [List.length_map, List.length_drop] at lengths
    have bound := marks.number_le
    have shortened : log.abort mark =
        { log with
          entries := linkEntry (linkEntry log.entries log.last log.free) mark.index none
          last := mark.index
          free := entry.next
          freeLength := log.freeLength + (live.length - mark.number) } := by
      unfold TreeLog.abort
      rw [if_neg last, layout.length_eq, entry_eq found]
    refine ⟨dropped ++ [log.last] ++ free, ?_⟩
    rw [shortened]
    constructor
    · rw [upto]
      exact kept
    · exact given
    · rw [upto, ← List.append_assoc]
      exact apart
    · rw [upto, List.getLast?_concat]
    · exact (layout.head.linkEntry log.last log.free).linkEntry mark.index none
    · intro number place intent found
      rw [List.getElem?_take] at found
      split at found
      · exact ((layout.holds number place intent found).linkEntry log.last log.free).linkEntry
          mark.index none
      · cases found
    · change (linkEntry (linkEntry log.entries log.last log.free) mark.index none).size = _
      rw [size_linkEntry, size_linkEntry, layout.size, List.length_append, List.length_take, ← lengths]
      omega
    · change log.freeLength + (live.length - mark.number) = _
      rw [layout.freeLength, List.length_append, ← lengths]
      omega

/-! ### Reading -/

theorem follow_eq {entries : Array (LogEntry τ)} {start : Option Nat}
    {list : List (Nat × Intent τ)} {fuel : Nat} (linked : Linked entries start (list.map Prod.fst) none)
    (holds : ∀ place intent, (place, intent) ∈ list →
      ∃ number, Holds entries place number (some intent))
    (enough : list.length ≤ fuel) : follow entries fuel start = list.map Prod.snd := by
  induction list generalizing start fuel with
  | nil =>
      cases linked
      cases fuel <;> rfl
  | cons head rest ih =>
      obtain ⟨place, intent⟩ := head
      obtain ⟨rfl, entry, found, linked⟩ := linked
      obtain ⟨number, entry', found', _, content⟩ := holds place intent List.mem_cons_self
      rw [found] at found'
      cases found'
      cases fuel with
      | zero => cases enough
      | succ fuel =>
          have more := ih linked (fun place intent member => holds place intent
            (List.mem_cons_of_mem _ member)) (Nat.le_of_succ_le_succ enough)
          simp only [follow, found, content, more, List.map_cons]

theorem intentsAfter_eq (layout : Layout log live free) (marks : MarksLive live mark) :
    log.intentsAfter mark.index = (live.drop mark.number).map Prod.snd := by
  obtain ⟨before, upto, split⟩ := split_mark marks
  have chain := layout.chain
  rw [split] at chain
  obtain ⟨middle, kept, given⟩ := linked_append.mp chain
  obtain ⟨entry, found, next⟩ := kept.last
  unfold TreeLog.intentsAfter
  rw [entry_eq found, next]
  refine follow_eq given (fun place intent member => ?_) ?_
  · obtain ⟨number, found⟩ := List.getElem?_of_mem (List.mem_of_mem_drop member)
    exact ⟨number + 1, layout.holds number place intent found⟩
  · rw [List.length_drop, layout.size]
    omega

theorem startMark_live (live : List (Nat × Intent τ)) : MarksLive live startMark := rfl

theorem intents_eq (layout : Layout log live free) : log.intents = live.map Prod.snd :=
  layout.intentsAfter_eq (startMark_live live)

/-! ### Building -/

/-- Building gives up what lies after the mark and attaches the node in its place. -/
theorem commit (layout : Layout log live free) (marks : MarksLive live mark)
    (enabled : log.enabled = true) (factory : TreeFactory σ τ) (label : Symbol) (state : σ) :
    ∃ added free',
      Layout (log.commit factory mark label state).1 (live.take mark.number ++ added) free' ∧
      added.map Prod.snd =
        attached label (nodeOf factory ((live.drop mark.number).map Prod.snd) state) := by
  obtain ⟨free', aborted⟩ := layout.abort marks
  have still : (log.abort mark).enabled = true := by
    unfold TreeLog.abort
    split <;> exact enabled
  unfold TreeLog.commit
  rw [if_pos enabled, layout.intentsAfter_eq marks]
  cases intents : (live.drop mark.number).map Prod.snd with
  | nil =>
      refine ⟨[], free', ?_, rfl⟩
      rw [List.append_nil]
      exact aborted.relatest none
  | cons first rest =>
      obtain ⟨added, free'', linked, content⟩ :=
        aborted.link label (some (Intent.construct factory (first :: rest) state).1.node)
      rw [still] at content
      exact ⟨added, free'', linked, content⟩

end Layout

/-! ### Live marks -/

inductive OnChain (log : TreeLog τ) : Nat → Prop
  | head : OnChain log 0
  | next {place next : Nat} (before : OnChain log place)
      (leads : (log.entry place).next = some next) : OnChain log next

/-- The entry of a mark is the one that was marked: it still has its number, and it lies on the live
chain. -/
structure Live (log : TreeLog τ) (mark : LogMark) : Prop where
  number : (log.entry mark.index).number = mark.number
  chained : OnChain log mark.index

theorem Layout.live_of_marks {log : TreeLog τ} {live : List (Nat × Intent τ)} {free : List Nat}
    {mark : LogMark} (layout : Layout log live free) (marks : MarksLive live mark) :
    Live log mark := by
  have on_chain (number place : Nat) (found : (places live)[number]? = some place) :
      OnChain log place := by
    induction number generalizing place with
    | zero => cases found; exact .head
    | succ number ih =>
        have within := (List.getElem?_eq_some_iff.mp found).1
        have before : (places live)[number]? = some (places live)[number] :=
          List.getElem?_eq_getElem (Nat.lt_of_succ_lt within)
        have split : places live = (places live).take number ++ [(places live)[number]] ++
            place :: (places live).drop (number + 2) := by
          conv_lhs => rw [← List.take_append_drop (number + 1) (places live)]
          rw [List.take_add_one, before, List.drop_eq_getElem_cons within,
            (List.getElem?_eq_some_iff.mp found).2]
          rfl
        have chain := layout.chain
        rw [split] at chain
        obtain ⟨middle, kept, leads, _⟩ := linked_append.mp chain
        obtain ⟨entry, found', next⟩ := kept.last
        exact .next (ih _ before) (by rw [entry_eq found', next, leads])
  exact ⟨layout.number_at marks, on_chain mark.number mark.index marks⟩

end Packrat.TreeLog
