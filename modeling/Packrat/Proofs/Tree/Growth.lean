/-
Growth of the log. A log that extends another one holds what that one held and, after it, the intents
that were added; so they can be read, given up or built from the mark of the log that was extended.
-/

import Packrat.Proofs.Tree.Layout

namespace Packrat.TreeLog

variable {σ τ : Type}

def Extends (log log' : TreeLog τ) (added : List (Intent τ)) : Prop :=
  log'.enabled = log.enabled ∧ ∀ live free, log.Layout live free →
    ∃ more free', log'.Layout (live ++ more) free' ∧ more.map Prod.snd = added

namespace Extends

variable {log middle log' : TreeLog τ} {added added' : List (Intent τ)}

theorem refl (log : TreeLog τ) : Extends log log [] := by
  refine ⟨rfl, fun live free layout => ⟨[], free, ?_, rfl⟩⟩
  rw [List.append_nil]
  exact layout

theorem trans (first : Extends log middle added) (second : Extends middle log' added') :
    Extends log log' (added ++ added') := by
  refine ⟨second.1.trans first.1, fun live free layout => ?_⟩
  obtain ⟨more, free', grown, content⟩ := first.2 live free layout
  obtain ⟨more', free'', grown', content'⟩ := second.2 (live ++ more) free' grown
  refine ⟨more ++ more', free'', ?_, ?_⟩
  · rw [← List.append_assoc]
    exact grown'
  · rw [List.map_append, content, content']

theorem append (log : TreeLog τ) (intent : Intent τ) :
    Extends log (log.append intent) (if log.enabled then [intent] else []) := by
  refine ⟨?_, fun live free layout => ?_⟩
  · unfold TreeLog.append
    split
    · split <;> rfl
    · rfl
  · obtain ⟨more, free', grown, content⟩ := layout.append intent
    exact ⟨more, free', grown, content⟩

theorem link (log : TreeLog τ) (label : Symbol) (child : Option τ) :
    Extends log (log.link label child) (if log.enabled then [.link label child] else []) := by
  refine ⟨?_, fun live free layout => ?_⟩
  · unfold TreeLog.link
    split
    · exact (append { log with latestLinked := child } (.link label child)).1
    · rfl
  · obtain ⟨more, free', grown, content⟩ := layout.link label child
    exact ⟨more, free', grown, content⟩

/-- The mark of a log is live in every log that extends it, with the added intents after it. -/
theorem marks (grows : Extends log log' added) {live : List (Nat × Intent τ)} {free : List Nat}
    (layout : log.Layout live free) : ∃ more free', log'.Layout (live ++ more) free' ∧
      MarksLive (live ++ more) log.mark ∧ log.mark.number = live.length ∧
      more.map Prod.snd = added := by
  obtain ⟨more, free', grown, content⟩ := grows.2 live free layout
  have numbered : log.mark.number = live.length := layout.length_eq
  have marks := layout.mark_live.keep (Nat.le_of_eq numbered) more
  rw [List.take_length] at marks
  exact ⟨more, free', grown, marks, numbered, content⟩

theorem intentsAfter (grows : Extends log log' added) {live : List (Nat × Intent τ)}
    {free : List Nat} (layout : log.Layout live free) :
    log'.intentsAfter log.mark.index = added := by
  obtain ⟨more, free', grown, marks, numbered, content⟩ := grows.marks layout
  rw [grown.intentsAfter_eq marks, numbered, List.drop_left, content]

theorem enabled_abort (log : TreeLog τ) (mark : LogMark) :
    (log.abort mark).enabled = log.enabled := by
  unfold TreeLog.abort
  split <;> rfl

theorem enabled_commit (factory : TreeFactory σ τ) (log : TreeLog τ) (mark : LogMark)
    (label : Symbol) (state : σ) :
    (log.commit factory mark label state).1.enabled = log.enabled := by
  unfold TreeLog.commit
  split
  · split
    · exact enabled_abort log mark
    · exact (link _ _ _).1.trans (enabled_abort log mark)
  · rfl

/-- Giving up what was added. -/
theorem abort (grows : Extends log log' added) : Extends log (log'.abort log.mark) [] := by
  refine ⟨(enabled_abort log' log.mark).trans grows.1, fun live free layout => ?_⟩
  obtain ⟨more, free', grown, marks, numbered, _⟩ := grows.marks layout
  obtain ⟨free'', aborted⟩ := grown.abort marks
  rw [numbered, List.take_left] at aborted
  exact ⟨[], free'', by rw [List.append_nil]; exact aborted, rfl⟩

/-- Building what was added. -/
theorem commit (grows : Extends log log' added) (enabled : log.enabled = true)
    (factory : TreeFactory σ τ) (label : Symbol) (state : σ) :
    Extends log (log'.commit factory log.mark label state).1
      (attached label (nodeOf factory added state)) := by
  have enabled' : log'.enabled = true := grows.1.trans enabled
  refine ⟨(enabled_commit factory log' log.mark label state).trans grows.1, ?_⟩
  intro live free layout
  obtain ⟨more, free', grown, marks, numbered, content⟩ := grows.marks layout
  obtain ⟨more', free'', built, content'⟩ := grown.commit marks enabled' factory label state
  rw [numbered, List.drop_left, content] at content'
  rw [numbered, List.take_left] at built
  exact ⟨more', free'', built, content'⟩

end Extends

end Packrat.TreeLog
