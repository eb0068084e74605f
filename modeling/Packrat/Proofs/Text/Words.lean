/-
The words of a text are the pieces between its blanks, as far as they are not empty. Words that are
joined by blanks are found again.
-/

import Packrat.Text.Words

namespace Packrat.Text

def pieces (text : List Char) : List (List Char) :=
  (text.splitOnP isBlank).filter fun piece => !piece.isEmpty

/-- The letters of the word that has begun stand before the first piece of the rest. -/
theorem wordsFrom_eq (begun text : List Char) :
    wordsFrom begun text =
      ((text.splitOnP isBlank).modifyHead (begun.reverse ++ ·)).filter
        fun piece => !piece.isEmpty := by
  induction text generalizing begun with
  | nil =>
      rw [wordsFrom, List.splitOnP_nil, List.modifyHead_cons, List.append_nil]
      cases begun <;> simp
  | cons c rest ih =>
      have next : (rest.splitOnP isBlank).modifyHead ([].reverse ++ ·) =
          rest.splitOnP isBlank := by
        cases rest.splitOnP isBlank <;> rfl
      rw [wordsFrom, List.splitOnP_cons_eq_if_modifyHead]
      by_cases blank : isBlank c = true
      · rw [if_pos blank, if_pos blank, List.modifyHead_cons, List.append_nil, ih [], next]
        cases begun <;> simp
      · rw [if_neg blank, if_neg blank, ih (c :: begun), List.modifyHead_modifyHead]
        have onward : (fun piece => (c :: begun).reverse ++ piece) =
            (begun.reverse ++ ·) ∘ List.cons c := by
          funext piece
          rw [List.reverse_cons, List.append_assoc]
          rfl
        rw [onward]

theorem words_eq_pieces (text : String) :
    words text = (pieces text.toList).map String.ofList := by
  rw [words, wordsFrom_eq, pieces]
  cases text.toList.splitOnP isBlank <;> rfl

theorem pieces_solid {word : List Char} (letters : word ≠ [])
    (solid : ∀ c ∈ word, isBlank c = false) : pieces word = [word] := by
  have kept : (!word.isEmpty) = true := by simpa using letters
  rw [pieces, List.splitOnP_eq_singleton solid, List.filter_cons_of_pos (by exact kept),
    List.filter_nil]

theorem pieces_append {word : List Char} (letters : word ≠ [])
    (solid : ∀ c ∈ word, isBlank c = false) (text : List Char) :
    pieces (word ++ ' ' :: text) = word :: pieces text := by
  have kept : (!word.isEmpty) = true := by simpa using letters
  rw [pieces, List.splitOnP_append_cons_of_forall_mem solid ' ' rfl,
    List.filter_cons_of_pos (by exact kept), pieces]

/-- Words without a blank are the pieces of what they are joined to by blanks. -/
theorem pieces_join {words : List (List Char)} (letters : ∀ word ∈ words, word ≠ [])
    (solid : ∀ word ∈ words, ∀ c ∈ word, isBlank c = false) :
    pieces ([' '].intercalate words) = words := by
  induction words with
  | nil => rfl
  | cons word rest ih =>
      have first := pieces_append (letters word List.mem_cons_self) (solid word List.mem_cons_self)
      have later := ih (fun other member => letters other (List.mem_cons_of_mem _ member))
        (fun other member => solid other (List.mem_cons_of_mem _ member))
      cases rest with
      | nil =>
          rw [List.intercalate_singleton]
          exact pieces_solid (letters word List.mem_cons_self) (solid word List.mem_cons_self)
      | cons next rest =>
          rw [List.intercalate_cons_cons, List.append_assoc, List.singleton_append, first, later]

/-- Texts without a blank are the words of what they are joined to by blanks. -/
theorem words_join {texts : List String} (letters : ∀ text ∈ texts, text.toList ≠ [])
    (solid : ∀ text ∈ texts, ∀ c ∈ text.toList, isBlank c = false) :
    words (" ".intercalate texts) = texts := by
  have found : pieces ([' '].intercalate (texts.map String.toList)) =
      texts.map String.toList := by
    refine pieces_join (fun word member => ?_) (fun word member => ?_)
    · obtain ⟨text, among, rfl⟩ := List.mem_map.mp member
      exact letters text among
    · obtain ⟨text, among, rfl⟩ := List.mem_map.mp member
      exact solid text among
  rw [words_eq_pieces, String.toList_intercalate]
  change (pieces ([' '].intercalate _)).map _ = _
  rw [found, List.map_map]
  simp

end Packrat.Text
