/-
Settings of a run, and the text form that sets them: words `name=value`, `+name` for true and
`-name` for false, applied from left to right over the defaults.
-/

import Packrat.Text.Words

namespace Packrat

inductive MemoStrategy where
  /-- Not at all. -/
  | disabled
  /-- In a bounded number of slots, where a later outcome displaces an earlier one. -/
  | elastic
  /-- All of them, for the whole run. -/
  | exact
deriving DecidableEq, Repr, Inhabited

inductive OptionError where
  | unknown (option : String)
  | invalidValue (option value : String)
  | missingValue (option : String)
deriving DecidableEq, Repr

def OptionError.message : OptionError → String
  | .unknown option => s!"unknown parser option `{option}`"
  | .invalidValue option value => s!"invalid value `{value}` for parser option `{option}`"
  | .missingValue option => s!"parser option `{option}` needs a value"

namespace MemoStrategy

def name : MemoStrategy → String
  | .disabled => "disabled"
  | .elastic => "elastic"
  | .exact => "exact"

def ofText (text : String) : Except OptionError MemoStrategy :=
  if text = "disabled" ∨ text = "off" ∨ text = "none" then .ok .disabled
  else if text = "elastic" then .ok .elastic
  else if text = "exact" ∨ text = "packrat" then .ok .exact
  else .error (.invalidValue "memo" text)

end MemoStrategy

structure Options where
  memo : MemoStrategy
  /-- Elastic slots for each memo point; zero turns memoization off. -/
  window : Nat
  /-- The number of elastic slots, if it is not to follow from the window; zero turns memoization
  off. -/
  slots : Option Nat
  /-- Whether trees are built. -/
  tree : Bool
  /-- Whether input that is left over makes a match an error. -/
  unconsumed : Bool
deriving DecidableEq, Repr

namespace Options

def initial : Options := ⟨.elastic, 64, none, true, false⟩

instance : Inhabited Options := ⟨initial⟩

def recognizer : Options := { initial with tree := false }

def maxWindow : Nat := 0x10000

def maxSlots : Nat := 0x100000

/-! ### Values -/

def decimal? : List Char → Option Nat
  | [] => none
  | digits =>
    if digits.all Char.isDigit then
      some (digits.foldl (fun n c => n * 10 + (c.toNat - 48)) 0)
    else none

/-- The number that a text denotes: decimal digits, with or without a plus sign before them. -/
def number? : List Char → Option Nat
  | '+' :: digits => decimal? digits
  | digits => decimal? digits

def boundedValue (option : String) (max : Nat) : Option (List Char) → Except OptionError Nat
  | none => .error (.missingValue option)
  | some text =>
    match number? text with
    | none => .error (.invalidValue option (String.ofList text))
    | some n =>
      if n ≤ max then .ok n else .error (.invalidValue option (String.ofList text))

def strategyValue (option : String) : Option (List Char) → Except OptionError MemoStrategy
  | none => .error (.missingValue option)
  | some text => MemoStrategy.ofText (String.ofList text)

def flagValue (option : String) : Option (List Char) → Except OptionError Bool
  | none => .error (.missingValue option)
  | some text =>
    let value := String.ofList text
    if value = "true" ∨ value = "on" ∨ value = "yes" then .ok true
    else if value = "false" ∨ value = "off" ∨ value = "no" then .ok false
    else .error (.invalidValue option value)

/-! ### Tokens -/

/-- The name in a token and the value it gives, if it gives one. The sign decides before the equals
sign, of which the first divides. -/
def splitToken : List Char → List Char × Option (List Char)
  | '+' :: name => (name, some "true".toList)
  | '-' :: name => (name, some "false".toList)
  | token =>
    match token.dropWhile (· ≠ '=') with
    | [] => (token, none)
    | _ :: value => (token.takeWhile (· ≠ '='), some value)

inductive Change where
  | memo (strategy : MemoStrategy)
  | window (size : Nat)
  | slots (count : Nat)
  | tree (build : Bool)
  | unconsumed (reject : Bool)
deriving DecidableEq, Repr

def apply (options : Options) : Change → Options
  | .memo strategy => { options with memo := strategy }
  | .window size => { options with window := size }
  | .slots count => { options with slots := some count }
  | .tree build => { options with tree := build }
  | .unconsumed reject => { options with unconsumed := reject }

/-- Change the settings by a value, if there is one. The settings stand beside the result, whether
they were changed or not. -/
def assign {α : Type} (options : Options) (value : Except OptionError α) (put : α → Options) :
    Except OptionError Unit × Options :=
  match value with
  | .ok value => (.ok (), put value)
  | .error e => (.error e, options)

def set (options : Options) (token : String) : Except OptionError Unit × Options :=
  let (name, value) := splitToken token.toList
  let option := String.ofList name
  if option = "memo" then
    options.assign (strategyValue option value) fun strategy => { options with memo := strategy }
  else if option = "window" then
    options.assign (boundedValue option maxWindow value) fun size => { options with window := size }
  else if option = "slots" then
    options.assign (boundedValue option maxSlots value) fun count =>
      { options with slots := some count }
  else if option = "tree" then
    options.assign (flagValue option value) fun build => { options with tree := build }
  else if option = "unconsumed" then
    options.assign (flagValue option value) fun reject => { options with unconsumed := reject }
  else (.error (.unknown option), options)

/-- Apply tokens until one is refused. The settings are those that the tokens before it made. -/
def setAll (options : Options) : List String → Except OptionError Unit × Options
  | [] => (.ok (), options)
  | token :: rest =>
    match options.set token with
    | (.ok (), options) => options.setAll rest
    | (.error e, options) => (.error e, options)

/-- The settings that a text of options asks for. Those of a text with a refused token are lost. -/
def ofText (text : String) : Except OptionError Options :=
  match initial.setAll (Text.words text) with
  | (.ok (), options) => .ok options
  | (.error e, _) => .error e

end Options

end Packrat
