/-
The chain of choice points, walked from the innermost one outwards. The walk meets every choice
point on the stack, from the top to the bottom, and ends; so a failure always finds a choice point
where it looks for one.
-/

import Packrat.Proofs.Machine.ChoiceChain

namespace Packrat

/-! ### Walking the chain -/

/-- Following the chain from a place on visits these places, one after the other, and ends. -/
inductive Walk (frames : List Frame) : Option Nat → List Nat → Prop
  | done : Walk frames none []
  | visit {index : Nat} {point : ChoicePoint} {places : List Nat}
      (found : frames[index]? = some (.choice point)) (rest : Walk frames point.outer places) :
      Walk frames (some index) (index :: places)

theorem Walk.extend {frames : List Frame} {start : Option Nat} {places : List Nat}
    (walk : Walk frames start places) (more : List Frame) : Walk (frames ++ more) start places := by
  induction walk with
  | done => exact .done
  | visit found _ ih =>
      refine .visit ?_ ih
      rw [List.getElem?_append_left (List.getElem?_eq_some_iff.mp found).1]
      exact found

def choicePlaces (frames : List Frame) : List Nat :=
  ((List.range frames.length).filter fun index =>
    (frames[index]?.bind Frame.choice?).isSome).reverse

theorem Frame.choice?_isSome {frame : Frame} :
    frame.choice?.isSome = true ↔ ∃ point, frame = .choice point := by
  cases frame with
  | choice point => exact ⟨fun _ => ⟨point, rfl⟩, fun _ => rfl⟩
  | ret | position | tree | bindings | count =>
      refine ⟨fun held => ?_, ?_⟩
      · cases held
      · rintro ⟨point, same⟩
        cases same

theorem mem_choicePlaces {frames : List Frame} {index : Nat} :
    index ∈ choicePlaces frames ↔ ∃ point, frames[index]? = some (.choice point) := by
  unfold choicePlaces
  rw [List.mem_reverse, List.mem_filter, List.mem_range]
  constructor
  · rintro ⟨within, held⟩
    rw [List.getElem?_eq_getElem within, Option.bind_some] at held
    obtain ⟨point, same⟩ := Frame.choice?_isSome.mp held
    exact ⟨point, by rw [List.getElem?_eq_getElem within, same]⟩
  · rintro ⟨point, found⟩
    refine ⟨(List.getElem?_eq_some_iff.mp found).1, ?_⟩
    rw [found]
    rfl

theorem choicePlaces_descends (frames : List Frame) : (choicePlaces frames).Pairwise (· > ·) := by
  unfold choicePlaces
  rw [List.pairwise_reverse]
  exact List.Pairwise.filter _ List.pairwise_lt_range

theorem choicePlaces_concat (frames : List Frame) (frame : Frame) :
    choicePlaces (frames ++ [frame]) =
      if frame.choice?.isSome then frames.length :: choicePlaces frames
      else choicePlaces frames := by
  have below : (List.range frames.length).filter (fun index =>
      ((frames ++ [frame])[index]?.bind Frame.choice?).isSome) =
      (List.range frames.length).filter fun index =>
        (frames[index]?.bind Frame.choice?).isSome := by
    refine List.filter_congr fun index member => ?_
    rw [List.getElem?_append_left (List.mem_range.mp member)]
  unfold choicePlaces
  rw [List.length_append, List.length_singleton, List.range_succ, List.filter_append, below,
    List.reverse_append, List.filter_cons, List.getElem?_concat_length, Option.bind_some]
  cases frame.choice?.isSome <;> rfl

/-- Where every choice point knows the one outside it, the walk from the topmost one meets them
all. -/
theorem walk_choicePlaces (frames : List Frame)
    (outer : ∀ index point, frames[index]? = some (.choice point) →
      point.outer = lastChoice (frames.take index)) :
    Walk frames (lastChoice frames) (choicePlaces frames) := by
  induction frames using List.reverseRecOn with
  | nil => exact .done
  | append_singleton frames frame ih =>
      have inner : Walk frames (lastChoice frames) (choicePlaces frames) := by
        refine ih fun index point found => ?_
        have within := (List.getElem?_eq_some_iff.mp found).1
        have known := outer index point (by rw [List.getElem?_append_left within]; exact found)
        rwa [List.take_append_of_le_length (Nat.le_of_lt within)] at known
      rw [lastChoice_concat, choicePlaces_concat]
      cases frame with
      | choice point =>
          have top : (frames ++ [Frame.choice point])[frames.length]? = some (.choice point) :=
            List.getElem?_concat_length
          have next := outer frames.length point top
          rw [List.take_left] at next
          exact .visit top (by rw [next]; exact inner.extend _)
      | ret | position | tree | bindings | count => exact inner.extend _

namespace Machine

variable {σ τ : Type} {m : Machine σ τ}

/-- The walk from the innermost choice point meets these places: those of all the choice points on
the stack, from the topmost to the bottommost, each once. -/
structure ChainComplete (m : Machine σ τ) (places : List Nat) : Prop where
  walk : Walk m.frames.toList m.catchIndex places
  descends : places.Pairwise (· > ·)
  complete : ∀ index, index ∈ places ↔ ∃ point, m.frames[index]? = some (.choice point)

theorem Chained.complete (chained : m.Chained) : m.ChainComplete (choicePlaces m.frames.toList) := by
  refine ⟨?_, choicePlaces_descends _, fun index => ?_⟩
  · rw [chained.innermost]
    exact walk_choicePlaces _ chained.outer
  · rw [mem_choicePlaces, Array.getElem?_toList]

/-! ### Failing finds a choice point -/

theorem Chained.fail (chained : m.Chained) (place : InstId) :
    ∃ target m', m.fail place = .goto target m' := by
  unfold Machine.fail
  cases caught : m.catchIndex with
  | none => exact ⟨_, _, rfl⟩
  | some index =>
      obtain ⟨point, found⟩ := chained.found caught
      simp only [innermost_eq caught found]
      exact ⟨_, _, rfl⟩

end Machine

end Packrat
