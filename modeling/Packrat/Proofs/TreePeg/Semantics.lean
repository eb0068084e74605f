/-
Parsing expressions that build trees, and what they mean. A success yields, beside its end, the intents
that it logs; a branch that is given up yields none. A labelled expression builds the intents of its
body into one node and logs that as a child, or logs nothing where the body has logged nothing.

Where no trees are built no intent is logged at all.
-/

import Packrat.Machine.Step
import Packrat.Proofs.Tree.Vacant

namespace Packrat

def Policy.stop? (input : Input) (pattern : Pattern ByteSet Bytes) (pos : Nat) :
    Policy → Option Nat
  | .once => (pattern.length? input pos).map (pos + ·)
  | .absent => if (pattern.length? input pos).isSome then none else some pos
  | .optional => some (pos + (pattern.length? input pos).getD 0)
  | .many => some (pattern.skipAll input pos)

namespace TreePeg

/-- A single entry or a few that belong together, logged at the cursor. -/
inductive Action where
  | node (shift : Int)
  | close (shift : Int) (tag : Symbol) (value : Option Bytes)
  | tag (tag : Symbol)
  | replace (value : Bytes)
  | fold (shift : Int) (label : Symbol)

def Action.intents? {τ : Type} (pos : Nat) : Action → Option (List (Intent τ))
  | .node shift => (Machine.shiftedFrom pos shift).map fun pos => [.begin pos]
  | .close shift name value => (Machine.shiftedFrom pos shift).map fun pos =>
      .capture pos :: (if name.isNull then [] else [.tag name]) ++ (value.map .replace).toList
  | .tag name => some [.tag name]
  | .replace value => some [.replace value]
  | .fold shift label => (Machine.shiftedFrom pos shift).map fun pos => [.leftFold pos label]

inductive Expr (ρ : Type) where
  | test (pattern : Pattern ByteSet Bytes) (policy : Policy)
  | act (action : Action)
  | seq (first second : Expr ρ)
  | choice (first second : Expr ρ)
  | option (body : Expr ρ)
  | star (body : Expr ρ)
  | absent (body : Expr ρ)
  | call (rule : ρ)
  /-- The body with what it logs built into one child. -/
  | link (label : Symbol) (body : Expr ρ)

/-- The end of a success and the intents that it logged. -/
abbrev Result (τ : Type) := Option (Nat × List (Intent τ))

def Result.behind {τ : Type} (before : List (Intent τ)) (result : Result τ) : Result τ :=
  result.map fun success => (success.1, before ++ success.2)

variable {ρ τ : Type}

/-- From a position an expression succeeds with the result, or fails where that is none. -/
inductive Derives (input : Input) (make : Node τ → τ) (building : Bool) (rules : ρ → Expr ρ) :
    (e : Expr ρ) → (pos : Nat) → (result : Result τ) → Prop
  | test {pattern : Pattern ByteSet Bytes} {policy : Policy} {pos stop : Nat}
      (found : policy.stop? input pattern pos = some stop) :
      Derives input make building rules (.test pattern policy) pos (some (stop, []))
  | testFail {pattern : Pattern ByteSet Bytes} {policy : Policy} {pos : Nat}
      (missing : policy.stop? input pattern pos = none) :
      Derives input make building rules (.test pattern policy) pos none
  | act {action : Action} {pos : Nat} {intents : List (Intent τ)}
      (logs : action.intents? pos = some intents) :
      Derives input make building rules (.act action) pos
        (some (pos, if building then intents else []))
  | seq {first second : Expr ρ} {pos middle : Nat} {logged : List (Intent τ)} {result : Result τ}
      (succeeds : Derives input make building rules first pos (some (middle, logged)))
      (rest : Derives input make building rules second middle result) :
      Derives input make building rules (.seq first second) pos (result.behind logged)
  | seqFail {first second : Expr ρ} {pos : Nat}
      (fails : Derives input make building rules first pos none) :
      Derives input make building rules (.seq first second) pos none
  | choiceFirst {first second : Expr ρ} {pos : Nat} {success : Nat × List (Intent τ)}
      (succeeds : Derives input make building rules first pos (some success)) :
      Derives input make building rules (.choice first second) pos (some success)
  | choiceSecond {first second : Expr ρ} {pos : Nat} {result : Result τ}
      (fails : Derives input make building rules first pos none)
      (other : Derives input make building rules second pos result) :
      Derives input make building rules (.choice first second) pos result
  | option {body : Expr ρ} {pos : Nat} {success : Nat × List (Intent τ)}
      (succeeds : Derives input make building rules body pos (some success)) :
      Derives input make building rules (.option body) pos (some success)
  | optionNone {body : Expr ρ} {pos : Nat}
      (fails : Derives input make building rules body pos none) :
      Derives input make building rules (.option body) pos (some (pos, []))
  | starFail {body : Expr ρ} {pos : Nat}
      (fails : Derives input make building rules body pos none) :
      Derives input make building rules (.star body) pos (some (pos, []))
  | starIdle {body : Expr ρ} {pos : Nat} {logged : List (Intent τ)}
      (idles : Derives input make building rules body pos (some (pos, logged))) :
      Derives input make building rules (.star body) pos (some (pos, []))
  | starMore {body : Expr ρ} {pos middle : Nat} {logged : List (Intent τ)} {result : Result τ}
      (succeeds : Derives input make building rules body pos (some (middle, logged)))
      (moves : middle ≠ pos) (more : Derives input make building rules (.star body) middle result) :
      Derives input make building rules (.star body) pos (result.behind logged)
  | absent {body : Expr ρ} {pos : Nat}
      (fails : Derives input make building rules body pos none) :
      Derives input make building rules (.absent body) pos (some (pos, []))
  | absentFail {body : Expr ρ} {pos : Nat} {success : Nat × List (Intent τ)}
      (succeeds : Derives input make building rules body pos (some success)) :
      Derives input make building rules (.absent body) pos none
  | call {rule : ρ} {pos : Nat} {result : Result τ}
      (body : Derives input make building rules (rules rule) pos result) :
      Derives input make building rules (.call rule) pos result
  | link {label : Symbol} {body : Expr ρ} {pos stop : Nat} {logged : List (Intent τ)}
      (succeeds : Derives input make building rules body pos (some (stop, logged))) :
      Derives input make building rules (.link label body) pos
        (some (stop, TreeLog.attached label (TreeLog.nodeOf (.ofFunction make) logged ())))
  | linkFail {label : Symbol} {body : Expr ρ} {pos : Nat}
      (fails : Derives input make building rules body pos none) :
      Derives input make building rules (.link label body) pos none

namespace Derives

variable {input : Input} {make : Node τ → τ} {building : Bool} {rules : ρ → Expr ρ} {e : Expr ρ}
  {pos : Nat} {result : Result τ}

theorem unique {result' : Result τ} (derives : Derives input make building rules e pos result)
    (derives' : Derives input make building rules e pos result') : result = result' := by
  induction derives generalizing result' with
  | test found =>
      cases derives' with
      | test found' => rw [found] at found'; cases found'; rfl
      | testFail missing => rw [found] at missing; cases missing
  | testFail missing =>
      cases derives' with
      | test found => rw [missing] at found; cases found
      | testFail missing' => rfl
  | act logs =>
      cases derives' with
      | act logs' => rw [logs] at logs'; cases logs'; rfl
  | seq _ _ first second =>
      cases derives' with
      | seq succeeds rest =>
          have same := first succeeds
          cases same
          rw [second rest]
      | seqFail fails => cases first fails
  | seqFail _ ih =>
      cases derives' with
      | seq succeeds rest => cases ih succeeds
      | seqFail fails => rfl
  | choiceFirst _ ih =>
      cases derives' with
      | choiceFirst succeeds => exact ih succeeds
      | choiceSecond fails other => cases ih fails
  | choiceSecond _ _ first second =>
      cases derives' with
      | choiceFirst succeeds => cases first succeeds
      | choiceSecond fails other => exact second other
  | option _ ih =>
      cases derives' with
      | option succeeds => exact ih succeeds
      | optionNone fails => cases ih fails
  | optionNone _ ih =>
      cases derives' with
      | option succeeds => cases ih succeeds
      | optionNone fails => rfl
  | starFail _ ih =>
      cases derives' with
      | starFail fails => rfl
      | starIdle idles => cases ih idles
      | starMore succeeds moves more => cases ih succeeds
  | starIdle _ ih =>
      cases derives' with
      | starFail fails => cases ih fails
      | starIdle idles => rfl
      | starMore succeeds moves more =>
          have same := ih succeeds
          cases same
          exact absurd rfl moves
  | starMore _ moves _ first second =>
      cases derives' with
      | starFail fails => cases first fails
      | starIdle idles =>
          have same := first idles
          cases same
          exact absurd rfl moves
      | starMore succeeds moves' more =>
          have same := first succeeds
          cases same
          rw [second more]
  | absent _ ih =>
      cases derives' with
      | absent fails => rfl
      | absentFail succeeds => cases ih succeeds
  | absentFail _ ih =>
      cases derives' with
      | absent fails => cases ih fails
      | absentFail succeeds => rfl
  | call _ ih =>
      cases derives' with
      | call body => exact ih body
  | link _ ih =>
      cases derives' with
      | link succeeds =>
          have same := ih succeeds
          cases same
          rfl
      | linkFail fails => cases ih fails
  | linkFail _ ih =>
      cases derives' with
      | link succeeds => cases ih succeeds
      | linkFail fails => rfl

theorem seq_cases {first second : Expr ρ} {stop : Nat} {logged : List (Intent τ)}
    (derives : Derives input make building rules (.seq first second) pos (some (stop, logged))) :
    ∃ middle before after,
      Derives input make building rules first pos (some (middle, before)) ∧
      Derives input make building rules second middle (some (stop, after)) ∧
      logged = before ++ after := by
  generalize whole : some (stop, logged) = result at derives
  cases derives with
  | seq succeeds rest =>
      obtain ⟨⟨last, after⟩, ends, same⟩ := Option.map_eq_some_iff.mp whole.symm
      cases ends
      cases same
      exact ⟨_, _, _, succeeds, rest, rfl⟩
  | seqFail => cases whole

theorem stop?_bound {input : Input} {pattern : Pattern ByteSet Bytes} {policy : Policy}
    {pos stop : Nat} (found : policy.stop? input pattern pos = some stop) : pos ≤ stop := by
  have skips (fuel start : Nat) : start ≤ pattern.skip input fuel start := by
    induction fuel generalizing start with
    | zero => exact Nat.le_refl _
    | succ fuel ih =>
        rw [Pattern.skip]
        split
        · exact Nat.le_trans (Nat.le_add_right _ _) (ih _)
        · exact Nat.le_refl _
  cases policy with
  | once =>
      obtain ⟨length, _, rfl⟩ := Option.map_eq_some_iff.mp found
      exact Nat.le_add_right _ _
  | absent =>
      simp only [Policy.stop?] at found
      split at found
      · cases found
      · cases found; exact Nat.le_refl _
  | optional =>
      cases found
      exact Nat.le_add_right _ _
  | many =>
      cases found
      exact skips _ _

/-- A property of what succeeds with what it logged, shown for each way to succeed. -/
theorem success_of {P : Nat → Nat → List (Intent τ) → Prop} (silent : ∀ pos stop, pos ≤ stop → P pos stop [])
    (action : ∀ pos (action : Action) intents, action.intents? pos = some intents →
      P pos pos (if building then intents else []))
    (joins : ∀ pos middle stop logged logged', P pos middle logged → P middle stop logged' →
      P pos stop (logged ++ logged'))
    (links : ∀ pos stop label logged, P pos stop logged →
      P pos stop (TreeLog.attached label (TreeLog.nodeOf (.ofFunction make) logged ())))
    (derives : Derives input make building rules e pos result) :
    ∀ stop logged, result = some (stop, logged) → P pos stop logged := by
  have behind {pos middle : Nat} {logged : List (Intent τ)} {result : Result τ}
      (first : P pos middle logged)
      (second : ∀ stop logged', result = some (stop, logged') → P middle stop logged')
      (stop : Nat) (whole : List (Intent τ)) (same : result.behind logged = some (stop, whole)) :
      P pos stop whole := by
    obtain ⟨⟨stop', logged'⟩, rest, same⟩ := Option.map_eq_some_iff.mp same
    cases same
    exact joins _ _ _ _ _ first (second _ _ rest)
  induction derives with
  | test found => intro stop logged same; cases same; exact silent _ _ (stop?_bound found)
  | act logs => intro stop logged same; cases same; exact action _ _ _ logs
  | seq _ _ first second => exact behind (first _ _ rfl) second
  | starMore _ _ _ first second => exact behind (first _ _ rfl) second
  | choiceFirst _ ih | option _ ih | call _ ih => exact ih
  | choiceSecond _ _ _ second => exact second
  | optionNone | starFail | starIdle | absent =>
      intro stop logged same
      cases same
      exact silent _ _ (Nat.le_refl _)
  | link _ ih =>
      intro stop logged same
      cases same
      exact links _ _ _ _ (ih _ _ rfl)
  | testFail | seqFail | absentFail | linkFail => intro stop logged same; cases same

theorem bound {stop : Nat} {logged : List (Intent τ)}
    (derives : Derives input make building rules e pos (some (stop, logged))) : pos ≤ stop :=
  success_of (P := fun pos stop _ => pos ≤ stop) (fun _ _ within => within)
    (fun _ _ _ _ => Nat.le_refl _) (fun _ _ _ _ _ first second => Nat.le_trans first second)
    (fun _ _ _ _ within => within) derives stop logged rfl

theorem logged_nil {stop : Nat} {logged : List (Intent τ)}
    (derives : Derives input make false rules e pos (some (stop, logged))) : logged = [] :=
  success_of (P := fun _ _ logged => logged = []) (fun _ _ _ => rfl) (fun _ _ _ _ => rfl)
    (fun _ _ _ _ _ first second => by rw [first, second, List.append_nil])
    (fun _ _ _ _ nothing => by rw [nothing]; rfl) derives stop logged rfl

theorem flat_action {action : Action} {intents : List (Intent τ)}
    (logs : action.intents? pos = some intents) : Intent.Flat intents := by
  cases action with
  | tag | replace => cases logs; exact Intent.flat_nil.cons rfl
  | node | fold =>
      obtain ⟨place, _, rfl⟩ := Option.map_eq_some_iff.mp logs
      exact Intent.flat_nil.cons rfl
  | close shift name value =>
      obtain ⟨place, _, rfl⟩ := Option.map_eq_some_iff.mp logs
      refine Intent.Flat.cons rfl (Intent.Flat.append ?_ ?_)
      · split
        · exact Intent.flat_nil
        · exact Intent.flat_nil.cons rfl
      · cases value with
        | none => exact Intent.flat_nil
        | some bytes => exact Intent.flat_nil.cons rfl

theorem flat {stop : Nat} {logged : List (Intent τ)}
    (derives : Derives input make building rules e pos (some (stop, logged))) :
    Intent.Flat logged := by
  refine success_of (P := fun _ _ logged => Intent.Flat logged) (fun _ _ _ => Intent.flat_nil)
    (fun pos action intents logs => ?_) (fun _ _ _ _ _ first second => first.append second)
    (fun _ _ label logged _ => Intent.flat_attached label _) derives stop logged rfl
  split
  · exact flat_action logs
  · exact Intent.flat_nil

end Derives

end TreePeg

end Packrat
