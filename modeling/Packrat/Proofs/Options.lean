/-
Texts of options. What a token changes is said by a grammar: the option that it names and the value
that its text denotes. A token of the grammar sets its option to the value and leaves the others
alone, whatever they are; any other token is refused and leaves all settings as they are. So a text
of tokens gives every option the value of the last token that names it, and all settings within the
bounds are those of some text.
-/

import Packrat.Options
import Packrat.Proofs.Text.Words

namespace Packrat.Options

/-! ### Options and their values -/

inductive Field where
  | memo
  | window
  | slots
  | tree
  | unconsumed
deriving DecidableEq

def Field.name : Field → String
  | memo => "memo"
  | window => "window"
  | slots => "slots"
  | tree => "tree"
  | unconsumed => "unconsumed"

def Change.field : Change → Field
  | memo _ => .memo
  | window _ => .window
  | slots _ => .slots
  | tree _ => .tree
  | unconsumed _ => .unconsumed

def Holds (options : Options) : Change → Prop
  | .memo strategy => options.memo = strategy
  | .window size => options.window = size
  | .slots count => options.slots = some count
  | .tree build => options.tree = build
  | .unconsumed reject => options.unconsumed = reject

def Agree (options other : Options) : Field → Prop
  | .memo => options.memo = other.memo
  | .window => options.window = other.window
  | .slots => options.slots = other.slots
  | .tree => options.tree = other.tree
  | .unconsumed => options.unconsumed = other.unconsumed

structure Bounded (options : Options) : Prop where
  window : options.window ≤ maxWindow
  slots : ∀ count, options.slots = some count → count ≤ maxSlots

section Apply

variable {options other third : Options} {change change' : Change} {field : Field}

theorem Agree.refl (options : Options) (field : Field) : options.Agree options field := by
  cases field <;> rfl

theorem Agree.trans (first : options.Agree other field) (second : other.Agree third field) :
    options.Agree third field := by
  cases field <;> exact Eq.trans first second

theorem Holds.of_agree (holds : other.Holds change) (agree : options.Agree other change.field) :
    options.Holds change := by
  cases change <;> exact Eq.trans agree holds

theorem apply_holds (options : Options) (change : Change) :
    (options.apply change).Holds change := by
  cases change <;> rfl

theorem apply_agree (options : Options) (differs : change.field ≠ field) :
    (options.apply change).Agree options field := by
  cases change <;> cases field <;> first | rfl | exact absurd rfl differs

/-- Changes of different options may be made in any order. -/
theorem apply_comm (options : Options) (differs : change.field ≠ change'.field) :
    (options.apply change).apply change' = (options.apply change').apply change := by
  cases change <;> cases change' <;> first | rfl | exact absurd rfl differs

end Apply

/-! ### The grammar of tokens -/

/-- Decimal digits, with or without a plus sign before them, and their number. -/
def Decimal (text : List Char) (n : Nat) : Prop :=
  ∃ digits, (text = digits ∨ text = '+' :: digits) ∧ digits ≠ [] ∧
    (∀ c ∈ digits, c.isDigit = true) ∧ Nat.ofDigitChars 10 digits 0 = n

def strategyNames : MemoStrategy → List String
  | .disabled => ["disabled", "off", "none"]
  | .elastic => ["elastic"]
  | .exact => ["exact", "packrat"]

def flagNames : Bool → List String
  | true => ["true", "on", "yes"]
  | false => ["false", "off", "no"]

def Denotes (text : List Char) : Change → Prop
  | .memo strategy => String.ofList text ∈ strategyNames strategy
  | .window size => Decimal text size ∧ size ≤ maxWindow
  | .slots count => Decimal text count ∧ count ≤ maxSlots
  | .tree flag | .unconsumed flag => String.ofList text ∈ flagNames flag

/-- A token asks for a change: `+name`, `-name` or `name=value`. -/
inductive Asks (change : Change) : List Char → Prop
  | plus (denotes : Denotes "true".toList change) : Asks change ('+' :: change.field.name.toList)
  | minus (denotes : Denotes "false".toList change) : Asks change ('-' :: change.field.name.toList)
  | value (text : List Char) (denotes : Denotes text change) :
      Asks change (change.field.name.toList ++ '=' :: text)

theorem decimal?_eq_some {digits : List Char} {n : Nat} :
    decimal? digits = some n ↔
      digits ≠ [] ∧ (∀ c ∈ digits, c.isDigit = true) ∧ Nat.ofDigitChars 10 digits 0 = n := by
  have value (start : Nat) : digits.foldl (fun n c => n * 10 + (c.toNat - 48)) start =
      Nat.ofDigitChars 10 digits start := by
    simp only [Nat.ofDigitChars, Nat.mul_comm]
    rfl
  cases digits with
  | nil => simp [decimal?]
  | cons c rest =>
      rw [decimal?, value]
      · by_cases all : (c :: rest).all Char.isDigit = true
        · rw [if_pos all, Option.some.injEq, and_iff_right (List.cons_ne_nil c rest),
            and_iff_right (List.all_eq_true.mp all)]
        · rw [if_neg all]
          refine iff_of_false (by simp) fun digits => all (List.all_eq_true.mpr digits.2.1)
      · simp

theorem number?_eq_some {text : List Char} {n : Nat} :
    number? text = some n ↔ Decimal text n := by
  unfold number?
  split
  · next digits =>
      rw [decimal?_eq_some]
      constructor
      · intro spelled
        exact ⟨digits, .inr rfl, spelled⟩
      · rintro ⟨others, rfl | same, spelled⟩
        · exact absurd (spelled.2.1 '+' List.mem_cons_self) (by decide)
        · cases same
          exact spelled
  · next unsigned =>
      rw [decimal?_eq_some]
      constructor
      · intro spelled
        exact ⟨text, .inl rfl, spelled⟩
      · rintro ⟨digits, rfl | rfl, spelled⟩
        · exact spelled
        · exact absurd rfl (unsigned digits)

theorem boundedValue_ok {option : String} {max n : Nat} {value : Option (List Char)} :
    boundedValue option max value = .ok n ↔
      ∃ text, value = some text ∧ Decimal text n ∧ n ≤ max := by
  cases value with
  | none => simp [boundedValue]
  | some text =>
      simp only [boundedValue, Option.some.injEq, exists_eq_left', ← number?_eq_some]
      cases number? text with
      | none => simp
      | some m =>
          by_cases small : m ≤ max
          · simp only [small, if_true, Except.ok.injEq, Option.some.injEq]
            exact ⟨fun same => ⟨same, same ▸ small⟩, And.left⟩
          · simp only [small, if_false, Option.some.injEq, reduceCtorEq, false_iff, not_and]
            rintro rfl
            exact small

theorem flagValue_ok {option : String} {flag : Bool} {value : Option (List Char)} :
    flagValue option value = .ok flag ↔
      ∃ text, value = some text ∧ String.ofList text ∈ flagNames flag := by
  cases value with
  | none => simp [flagValue]
  | some text =>
      simp only [flagValue, Option.some.injEq, exists_eq_left']
      cases flag <;> grind [flagNames]

theorem strategyValue_ok {option : String} {strategy : MemoStrategy}
    {value : Option (List Char)} :
    strategyValue option value = .ok strategy ↔
      ∃ text, value = some text ∧ String.ofList text ∈ strategyNames strategy := by
  cases value with
  | none => simp [strategyValue]
  | some text =>
      simp only [strategyValue, MemoStrategy.ofText, Option.some.injEq, exists_eq_left']
      cases strategy <;> grind [strategyNames]

def Field.read (field : Field) (value : Option (List Char)) : Except OptionError Change :=
  match field with
  | memo => (strategyValue field.name value).map .memo
  | window => (boundedValue field.name maxWindow value).map .window
  | slots => (boundedValue field.name maxSlots value).map .slots
  | tree => (flagValue field.name value).map .tree
  | unconsumed => (flagValue field.name value).map .unconsumed

theorem map_ok {ε α β : Type} {f : α → β} {result : Except ε α} {b : β} :
    result.map f = .ok b ↔ ∃ a, result = .ok a ∧ f a = b := by
  cases result <;> simp [Except.map]

theorem Field.read_ok {field : Field} {value : Option (List Char)} {change : Change} :
    field.read value = .ok change ↔
      change.field = field ∧ ∃ text, value = some text ∧ Denotes text change := by
  cases field with
  | memo =>
      simp only [Field.read, map_ok, strategyValue_ok]
      cases change <;> simp [Change.field, Denotes]
  | window | slots =>
      simp only [Field.read, map_ok, boundedValue_ok]
      cases change <;> simp [Change.field, Denotes]
  | tree | unconsumed =>
      simp only [Field.read, map_ok, flagValue_ok]
      cases change <;> simp [Change.field, Denotes]

def changeOf (token : String) : Except OptionError Change :=
  let (name, value) := splitToken token.toList
  let option := String.ofList name
  if option = "memo" then (strategyValue option value).map .memo
  else if option = "window" then (boundedValue option maxWindow value).map .window
  else if option = "slots" then (boundedValue option maxSlots value).map .slots
  else if option = "tree" then (flagValue option value).map .tree
  else if option = "unconsumed" then (flagValue option value).map .unconsumed
  else .error (.unknown option)

theorem changeOf_eq {token : String} {field : Field} {value : Option (List Char)}
    (named : splitToken token.toList = (field.name.toList, value)) :
    changeOf token = field.read value := by
  unfold changeOf
  rw [named]
  cases field with
  | memo | window | slots | tree | unconsumed => simp [Field.name, Field.read]

theorem changeOf_unknown {token : String}
    (unknown : ∀ field : Field, (splitToken token.toList).1 ≠ field.name.toList) :
    changeOf token = .error (.unknown (String.ofList (splitToken token.toList).1)) := by
  have differs (field : Field) : String.ofList (splitToken token.toList).1 ≠ field.name := by
    intro same
    exact unknown field (by rw [← same, String.toList_ofList])
  exact (if_neg (differs .memo)).trans <| (if_neg (differs .window)).trans <|
    (if_neg (differs .slots)).trans <| (if_neg (differs .tree)).trans <|
    if_neg (differs .unconsumed)

theorem asks_iff {change : Change} {token : List Char} :
    Asks change token ↔
      ∃ text, splitToken token = (change.field.name.toList, some text) ∧ Denotes text change := by
  constructor
  · rintro (denotes | denotes | ⟨text, denotes⟩)
    · exact ⟨_, rfl, denotes⟩
    · exact ⟨_, rfl, denotes⟩
    · refine ⟨text, ?_, denotes⟩
      cases change.field <;> rfl
  · rintro ⟨text, split, denotes⟩
    unfold splitToken at split
    split at split
    · next name =>
        obtain ⟨rfl, same⟩ := Prod.mk.inj split
        cases same
        exact .plus denotes
    · next name =>
        obtain ⟨rfl, same⟩ := Prod.mk.inj split
        cases same
        exact .minus denotes
    · split at split
      · cases (Prod.mk.inj split).2
      · next sign value rest =>
          obtain ⟨named, same⟩ := Prod.mk.inj split
          cases same
          have divides : sign = '=' := by
            have head := List.head?_dropWhile_not (fun c => decide (c ≠ '=')) token
            rw [rest] at head
            simpa using head
          rw [← List.takeWhile_append_dropWhile (p := fun c => decide (c ≠ '=')) (l := token),
            rest, named, divides]
          exact .value text denotes

/-- The tokens of the grammar are those that are accepted. -/
theorem changeOf_ok {token : String} {change : Change} :
    changeOf token = .ok change ↔ Asks change token.toList := by
  rw [asks_iff]
  by_cases known : ∃ field : Field, (splitToken token.toList).1 = field.name.toList
  · obtain ⟨field, named⟩ := known
    have pair : splitToken token.toList = (field.name.toList, (splitToken token.toList).2) := by
      rw [← named]
    rw [changeOf_eq pair, Field.read_ok]
    constructor
    · rintro ⟨rfl, text, given, denotes⟩
      exact ⟨text, by rw [pair, given], denotes⟩
    · rintro ⟨text, split, denotes⟩
      rw [pair] at split
      obtain ⟨names, given⟩ := Prod.mk.inj split
      have same : field = change.field := by
        revert names
        cases field <;> cases change.field <;> decide
      exact ⟨same.symm, text, given, denotes⟩
  · rw [changeOf_unknown (not_exists.mp known)]
    constructor
    · intro accepted
      cases accepted
    · rintro ⟨text, split, _⟩
      exact absurd ⟨change.field, congrArg Prod.fst split⟩ known

/-! ### One token -/

section Set

variable {token : String} {change change' : Change}

theorem Asks.unique (asks : Asks change token.toList) (asks' : Asks change' token.toList) :
    change = change' := by
  have read := changeOf_ok.mpr asks
  rw [changeOf_ok.mpr asks'] at read
  cases read
  rfl

theorem assign_apply {α : Type} (options : Options) (value : Except OptionError α)
    (change : α → Change) :
    options.assign value (fun a => options.apply (change a)) =
      match value.map change with
      | .ok change => (.ok (), options.apply change)
      | .error e => (.error e, options) := by
  cases value <;> rfl

/-- The value that a token gives to its option is read before the option is set: nothing is set if
there is no such value. -/
theorem set_eq (options : Options) (token : String) :
    options.set token =
      match changeOf token with
      | .ok change => (.ok (), options.apply change)
      | .error e => (.error e, options) := by
  unfold set changeOf
  dsimp only
  split
  · exact options.assign_apply _ .memo
  split
  · exact options.assign_apply _ .window
  split
  · exact options.assign_apply _ .slots
  split
  · exact options.assign_apply _ .tree
  split
  · exact options.assign_apply _ .unconsumed
  rfl

theorem set_of_asks (asks : Asks change token.toList) (options : Options) :
    options.set token = (.ok (), options.apply change) := by
  rw [set_eq, changeOf_ok.mpr asks]

/-- A token is accepted, with the change that it asks for, or refused, whatever it is applied to;
and then it leaves the settings as they are. -/
theorem set_cases (token : String) :
    (∃ change, Asks change token.toList) ∨
      (∀ change, ¬ Asks change token.toList) ∧
        ∃ error, ∀ options : Options, options.set token = (.error error, options) := by
  cases read : changeOf token with
  | ok change => exact .inl ⟨change, changeOf_ok.mp read⟩
  | error error =>
      refine .inr ⟨fun change asks => ?_, error, fun options => ?_⟩
      · rw [changeOf_ok.mpr asks] at read
        cases read
      · rw [set_eq, read]

theorem Asks.bounded {options : Options} (bounded : options.Bounded) {text : List Char}
    (asks : Asks change text) : (options.apply change).Bounded := by
  have denotes : ∃ value, Denotes value change := by
    cases asks with
    | plus denotes | minus denotes => exact ⟨_, denotes⟩
    | value text denotes => exact ⟨text, denotes⟩
  obtain ⟨value, denotes⟩ := denotes
  cases change with
  | window size => exact ⟨denotes.2, bounded.slots⟩
  | slots count =>
      refine ⟨bounded.window, fun other same => ?_⟩
      cases same
      exact denotes.2
  | memo | tree | unconsumed => exact ⟨bounded.window, bounded.slots⟩

end Set

/-! ### All tokens -/

def Unnamed (tokens : List String) (field : Field) : Prop :=
  ∀ token ∈ tokens, ∀ change, Asks change token.toList → change.field ≠ field

/-- The settings `after` are those that the tokens make of the settings `before`: every option has
the value of the last token that names it. -/
structure Follows (tokens : List String) (before after : Options) : Prop where
  last : ∀ earlier token later change, tokens = earlier ++ token :: later →
    Asks change token.toList → Unnamed later change.field → after.Holds change
  others : ∀ field, Unnamed tokens field → after.Agree before field

theorem Follows.cons {token : String} {rest : List String} {before after : Options}
    {change : Change} (asks : Asks change token.toList)
    (follows : Follows rest (before.apply change) after) :
    Follows (token :: rest) before after := by
  constructor
  · intro earlier other later change' split asks' unnamed
    cases earlier with
    | nil =>
        cases split
        obtain rfl := asks.unique asks'
        exact (before.apply_holds change).of_agree (follows.others _ unnamed)
    | cons first earlier =>
        cases split
        exact follows.last earlier other later change' rfl asks' unnamed
  · intro field unnamed
    have differs : change.field ≠ field := unnamed token List.mem_cons_self change asks
    have behind : Unnamed rest field := fun other member =>
      unnamed other (List.mem_cons_of_mem token member)
    exact (follows.others field behind).trans (before.apply_agree differs)

section SetAll

variable {token : String} {tokens : List String} {change : Change} {before after : Options}
  {error : OptionError}

theorem setAll_of_asks (asks : Asks change token.toList) (options : Options)
    (rest : List String) :
    options.setAll (token :: rest) = (options.apply change).setAll rest := by
  rw [setAll, set_of_asks asks]

theorem setAll_of_refused (refused : before.set token = (.error error, before))
    (rest : List String) : before.setAll (token :: rest) = (.error error, before) := by
  rw [setAll, refused]

theorem setAll_follows (accepted : before.setAll tokens = (.ok (), after)) :
    Follows tokens before after := by
  induction tokens generalizing before with
  | nil =>
      cases accepted
      refine ⟨fun earlier token later change split => ?_, fun field _ => .refl _ field⟩
      simp at split
  | cons token rest ih =>
      rcases set_cases token with ⟨change, asks⟩ | ⟨_, error, refused⟩
      · rw [setAll_of_asks asks] at accepted
        exact (ih accepted).cons asks
      · rw [setAll_of_refused (refused before)] at accepted
        cases accepted

theorem setAll_bounded (bounded : before.Bounded)
    (accepted : before.setAll tokens = (.ok (), after)) : after.Bounded := by
  induction tokens generalizing before with
  | nil =>
      cases accepted
      exact bounded
  | cons token rest ih =>
      rcases set_cases token with ⟨change, asks⟩ | ⟨_, error, refused⟩
      · rw [setAll_of_asks asks] at accepted
        exact ih (asks.bounded bounded) accepted
      · rw [setAll_of_refused (refused before)] at accepted
        cases accepted

/-- Tokens are all accepted, or the first one that is refused gives the error, and the settings are
those that the tokens before it made. -/
theorem setAll_error :
    before.setAll tokens = (.error error, after) ↔
      ∃ earlier token later, tokens = earlier ++ token :: later ∧
        before.setAll earlier = (.ok (), after) ∧
        ∀ options : Options, options.set token = (.error error, options) := by
  induction tokens generalizing before with
  | nil =>
      refine iff_of_false (fun failed => by cases failed) ?_
      rintro ⟨earlier, token, later, split, _⟩
      simp at split
  | cons token rest ih =>
      rcases set_cases token with ⟨change, asks⟩ | ⟨never, error', refused⟩
      · rw [setAll_of_asks asks, ih]
        constructor
        · rintro ⟨earlier, other, later, rfl, accepted, refused⟩
          exact ⟨token :: earlier, other, later, rfl, (setAll_of_asks asks _ earlier).trans
            accepted, refused⟩
        · rintro ⟨earlier, other, later, split, accepted, refused⟩
          cases earlier with
          | nil =>
              cases split
              have both := refused before
              rw [set_of_asks asks] at both
              cases both
          | cons first earlier =>
              cases split
              rw [setAll_of_asks asks] at accepted
              exact ⟨earlier, other, later, rfl, accepted, refused⟩
      · rw [setAll_of_refused (refused before)]
        constructor
        · intro same
          cases same
          exact ⟨[], token, rest, rfl, rfl, refused⟩
        · rintro ⟨earlier, other, later, split, accepted, refused'⟩
          cases earlier with
          | nil =>
              cases split
              have same := (refused' before).symm.trans (refused before)
              cases same
              cases accepted
              rfl
          | cons first earlier =>
              cases split
              rw [setAll_of_refused (refused before)] at accepted
              cases accepted

theorem setAll_ok :
    (∃ after, before.setAll tokens = (.ok (), after)) ↔
      ∀ token ∈ tokens, ∃ change, Asks change token.toList := by
  induction tokens generalizing before with
  | nil => exact iff_of_true ⟨before, rfl⟩ (List.forall_mem_nil _)
  | cons token rest ih =>
      rw [List.forall_mem_cons]
      rcases set_cases token with ⟨change, asks⟩ | ⟨never, error, refused⟩
      · rw [setAll_of_asks asks, ih, and_iff_right ⟨change, asks⟩]
      · rw [setAll_of_refused (refused before)]
        refine iff_of_false (fun accepted => ?_) fun all => ?_
        · obtain ⟨_, accepted⟩ := accepted
          cases accepted
        · obtain ⟨change, asks⟩ := all.1
          exact never change asks

theorem setAll_of_changes {text : Change → String} {changes : List Change}
    (asked : ∀ change ∈ changes, Asks change (text change).toList) (options : Options) :
    options.setAll (changes.map text) = (.ok (), changes.foldl apply options) := by
  induction changes generalizing options with
  | nil => rfl
  | cons change rest ih =>
      obtain ⟨first, others⟩ := List.forall_mem_cons.mp asked
      rw [List.map_cons, setAll_of_asks first, ih others, List.foldl_cons]

theorem ofText_ok {text : String} :
    ofText text = .ok after ↔ initial.setAll (Text.words text) = (.ok (), after) := by
  unfold ofText
  split
  · next accepted => rw [accepted, Except.ok.injEq, Prod.mk.injEq, and_iff_right rfl]
  · next refused =>
      rw [refused]
      exact iff_of_false nofun nofun

theorem ofText_error {text : String} :
    ofText text = .error error ↔
      ∃ after, initial.setAll (Text.words text) = (.error error, after) := by
  unfold ofText
  split
  · next accepted =>
      rw [accepted]
      exact iff_of_false nofun nofun
  · next refused =>
      rw [refused]
      simp

end SetAll

/-! ### Settings as a text -/

namespace Field

def valued (field : Field) (value : String) : String := field.name ++ "=" ++ value

def signed (field : Field) (flag : Bool) : String := (if flag then "+" else "-") ++ field.name

end Field

def Change.text : Change → String
  | memo strategy => Field.memo.valued strategy.name
  | window size => Field.window.valued (toString size)
  | slots count => Field.slots.valued (toString count)
  | tree build => Field.tree.signed build
  | unconsumed reject => Field.unconsumed.signed reject

def changes (options : Options) : List Change :=
  [.memo options.memo, .window options.window] ++ (options.slots.map .slots).toList ++
    [.tree options.tree, .unconsumed options.unconsumed]

/-- The settings as a text: `memo=M window=W`, `slots=S` if it is set, and the two flags with their
signs; numbers are in decimal. -/
def text (options : Options) : String :=
  " ".intercalate (options.changes.map Change.text)

theorem toList_toString (n : Nat) : (toString n).toList = Nat.toDigits 10 n :=
  Nat.toList_repr

theorem digit_of_toString {n : Nat} {c : Char} (member : c ∈ (toString n).toList) :
    c.isDigit = true := by
  rw [toList_toString] at member
  exact Nat.isDigit_of_mem_toDigits (by decide) (by decide) member

theorem decimal_toString (n : Nat) : Decimal (toString n).toList n := by
  refine ⟨_, .inl rfl, ?_, fun c member => digit_of_toString member, ?_⟩
  · rw [toList_toString]
    exact Nat.toDigits_ne_nil
  · rw [toList_toString]
    exact Nat.ofDigitChars_toDigits (by decide) (by decide)

theorem toList_valued (field : Field) (value : String) :
    (field.valued value).toList = field.name.toList ++ '=' :: value.toList := by
  rw [Field.valued, String.toList_append, String.toList_append, List.append_assoc]
  rfl

theorem strategy_denotes (strategy : MemoStrategy) :
    Denotes strategy.name.toList (.memo strategy) := by
  unfold Denotes
  cases strategy <;> decide

/-- The token that is written for a value asks for it. -/
theorem asks_text {options : Options} (bounded : options.Bounded) {change : Change}
    (among : change ∈ options.changes) : Asks change change.text.toList := by
  have sign (flag : Bool) : String.ofList (toString flag).toList ∈ flagNames flag := by
    cases flag <;> decide
  cases change with
  | memo strategy =>
      rw [Change.text, toList_valued]
      exact .value strategy.name.toList (strategy_denotes strategy)
  | window size =>
      have same : size = options.window := by simpa [changes] using among
      have denotes : Denotes (toString size).toList (.window size) :=
        ⟨decimal_toString size, same ▸ bounded.window⟩
      rw [Change.text, toList_valued]
      exact .value (toString size).toList denotes
  | slots count =>
      have same : options.slots = some count := by simpa [changes] using among
      have denotes : Denotes (toString count).toList (.slots count) :=
        ⟨decimal_toString count, bounded.slots count same⟩
      rw [Change.text, toList_valued]
      exact .value (toString count).toList denotes
  | tree flag | unconsumed flag =>
      cases flag with
      | true => exact .plus (sign true)
      | false => exact .minus (sign false)

theorem digit_solid {c : Char} (digit : c.isDigit = true) : Text.isBlank c = false := by
  have between : 48 ≤ c.toNat ∧ c.toNat ≤ 57 := Char.isDigit_iff_toNat.mp digit
  have outside : ∀ range ∈ Text.blankRanges, range.2 < 48 ∨ 57 < range.1 := by decide
  refine List.any_eq_false.mpr fun range member inside => ?_
  rw [Bool.and_eq_true, decide_eq_true_iff, decide_eq_true_iff] at inside
  have apart := outside range member
  omega

theorem name_solid (field : Field) : field.name.toList.all (!Text.isBlank ·) = true := by
  cases field <;> rfl

theorem strategy_solid (strategy : MemoStrategy) :
    strategy.name.toList.all (!Text.isBlank ·) = true := by
  cases strategy <;> rfl

theorem digits_solid (n : Nat) : (toString n).toList.all (!Text.isBlank ·) = true := by
  refine List.all_eq_true.mpr fun c member => ?_
  rw [digit_solid (digit_of_toString member)]
  rfl

/-- What is written for a value is one word. -/
theorem text_solid (change : Change) : change.text.toList.all (!Text.isBlank ·) = true := by
  have valued (field : Field) {value : String}
      (solid : value.toList.all (!Text.isBlank ·) = true) :
      (field.valued value).toList.all (!Text.isBlank ·) = true := by
    rw [toList_valued, List.all_append, List.all_cons, name_solid, solid]
    rfl
  have signed (field : Field) (flag : Bool) :
      (field.signed flag).toList.all (!Text.isBlank ·) = true := by
    rw [Field.signed, String.toList_append, List.all_append, name_solid]
    cases flag <;> rfl
  cases change with
  | memo strategy => exact valued .memo (strategy_solid strategy)
  | window size => exact valued .window (digits_solid size)
  | slots count => exact valued .slots (digits_solid count)
  | tree flag => exact signed .tree flag
  | unconsumed flag => exact signed .unconsumed flag

theorem text_letters (change : Change) : change.text.toList ≠ [] := by
  cases change with
  | memo | window | slots =>
      rw [Change.text, toList_valued]
      exact List.append_ne_nil_of_right_ne_nil _ (List.cons_ne_nil _ _)
  | tree flag | unconsumed flag => cases flag <;> decide

theorem words_text (options : Options) :
    Text.words options.text = options.changes.map Change.text := by
  refine Text.words_join (fun word member => ?_) (fun word member => ?_)
  · obtain ⟨change, _, rfl⟩ := List.mem_map.mp member
    exact text_letters change
  · obtain ⟨change, _, rfl⟩ := List.mem_map.mp member
    intro c letter
    have unblank := List.all_eq_true.mp (text_solid change) c letter
    exact (Bool.not_eq_true' _).mp unblank

/-- Settings within the bounds are those of their text. -/
theorem ofText_text {options : Options} (bounded : options.Bounded) :
    ofText options.text = .ok options := by
  have restored : options.changes.foldl apply initial = options := by
    obtain ⟨memo, window, slots, tree, unconsumed⟩ := options
    cases slots <;> rfl
  rw [ofText_ok, words_text, setAll_of_changes (fun change among => asks_text bounded among),
    restored]

theorem initial_bounded : initial.Bounded :=
  ⟨by decide, fun count slots => by cases slots⟩

/-- Options are set token by token, and option by option. A token is accepted or refused whatever
the settings are, and a refused one gives an error and leaves all settings as they are; an accepted
one gives its option the value that it denotes and leaves the other options as they are, so that
tokens of different options may be applied in any order. A text is accepted if all of its words are,
and then every option has the value of the last word that names it, or the default, within the
bounds; if not, the error is that of the first word that is refused. All settings within the bounds
are those of a text. -/
theorem options_by_tokens :
    (∀ token : String,
      (∃ change, Asks change token.toList ∧ ∀ options : Options, ∃ options',
        options.set token = (.ok (), options') ∧ options'.Holds change ∧
          ∀ field, change.field ≠ field → options'.Agree options field) ∨
      (∀ change, ¬ Asks change token.toList) ∧
        ∃ error, ∀ options : Options, options.set token = (.error error, options)) ∧
    (∀ (token token' : String) (change change' : Change), Asks change token.toList →
      Asks change' token'.toList → change.field ≠ change'.field → ∀ options : Options, ∃ both,
        (options.set token).2.set token' = (.ok (), both) ∧
          (options.set token').2.set token = (.ok (), both)) ∧
    (∀ text : String,
      let tokens := (Text.pieces text.toList).map String.ofList
      ((∃ options, ofText text = .ok options) ↔
        ∀ token ∈ tokens, ∃ change, Asks change token.toList) ∧
      (∀ options, ofText text = .ok options → Follows tokens initial options ∧ options.Bounded) ∧
      ∀ error, ofText text = .error error ↔
        ∃ earlier token later, tokens = earlier ++ token :: later ∧
          (∀ other ∈ earlier, ∃ change, Asks change other.toList) ∧
          ∀ options : Options, options.set token = (.error error, options)) ∧
    ∀ options : Options, options.Bounded → ofText options.text = .ok options := by
  refine ⟨fun token => ?_, fun token token' change change' asks asks' differs options => ?_,
    fun text => ?_, fun options bounded => ofText_text bounded⟩
  · rcases set_cases token with ⟨change, asks⟩ | refused
    · refine .inl ⟨change, asks, fun options => ?_⟩
      exact ⟨_, set_of_asks asks options, options.apply_holds change,
        fun field differs => options.apply_agree differs⟩
    · exact .inr refused
  · refine ⟨(options.apply change).apply change', ?_, ?_⟩
    · rw [set_of_asks asks, set_of_asks asks']
    · rw [set_of_asks asks', set_of_asks asks, options.apply_comm differs]
  · intro tokens
    have words : Text.words text = tokens := Text.words_eq_pieces text
    refine ⟨?_, fun options accepted => ?_, fun error => ?_⟩
    · simp only [ofText_ok, words]
      exact setAll_ok
    · rw [ofText_ok, words] at accepted
      exact ⟨setAll_follows accepted, setAll_bounded initial_bounded accepted⟩
    · simp only [ofText_error, words, setAll_error]
      constructor
      · rintro ⟨after, earlier, token, later, split, accepted, refused⟩
        exact ⟨earlier, token, later, split, setAll_ok.mp ⟨after, accepted⟩, refused⟩
      · rintro ⟨earlier, token, later, split, accepted, refused⟩
        obtain ⟨after, accepted⟩ := setAll_ok.mpr accepted
        exact ⟨after, earlier, token, later, split, accepted, refused⟩

/-- Two tokens that may be exchanged, one that is refused, a text that gives the window twice, and
settings that are written and read again. -/
theorem options_by_tokens_window :
    let settings : Options := ⟨.exact, 32, some 0, false, true⟩
    (∀ options : Options, ∃ both, (options.set "window=+5").2.set "-tree" = (.ok (), both) ∧
      (options.set "-tree").2.set "window=+5" = (.ok (), both)) ∧
    (∀ options : Options, options.set "-window" =
      (.error (.invalidValue "window" "false"), options)) ∧
    (∃ options, ofText "window=+5 -tree window=7" = .ok options ∧ options.window = 7 ∧
      options.Bounded) ∧
    settings.text = "memo=exact window=32 slots=0 -tree +unconsumed" ∧
    ofText settings.text = .ok settings := by
  intro settings
  obtain ⟨_, exchange, texts, restored⟩ := options_by_tokens
  have accepted : ofText "window=+5 -tree window=7" = .ok ⟨.elastic, 7, none, false, false⟩ := rfl
  obtain ⟨follows, bounded⟩ := (texts _).2.1 _ accepted
  have bounds : settings.Bounded := ⟨by decide, fun count given => by cases given; decide⟩
  refine ⟨exchange _ _ (.window 5) (.tree false) (changeOf_ok.mp rfl) (changeOf_ok.mp rfl)
    (by decide), fun options => rfl, ⟨_, accepted, ?_, bounded⟩, by decide +kernel,
    restored settings bounds⟩
  exact follows.last ["window=+5", "-tree"] "window=7" [] (.window 7) rfl (changeOf_ok.mp rfl)
    (fun token member => by cases member)

end Packrat.Options
