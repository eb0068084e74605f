/-
The listing of a program: a line for each instruction, with its place, its mnemonic and its operands.
A successor other than the next line is written behind an arrow, and the starting line is marked. There
is no listing of a program that refers to an entry that its pools do not have.
-/

import Packrat.ByteSet.Text
import Packrat.Code.Program

namespace Packrat

/-! ### Operands -/

def InstId.label (id : InstId) : String := s!"L{id.index}"

def hexText (n : Nat) : String :=
  "0x" ++ String.ofList (Nat.toDigits 16 n)

namespace Code

variable {t : Type} (code : Code t)

def name (sym : Symbol) : String := code.symbols.name sym

def literalText? (id : LitId) : Option String := (code.literal? id).map Bytes.escaped

def memoName? (id : MemoId) : Option String :=
  (code.memoPoint? id).map fun point => code.name point.label

def patternText? : Pattern SetId LitId → Option String
  | .byte b => some s!" '{String.ofList (Ascii.escape b)}'"
  | .set id => (code.byteSet? id).map fun set => s!" {set.text}"
  | .literal id => (code.literalText? id).map fun text => s!" \"{text}\""
  | .any => some ""

end Code

namespace Program

variable (program : Program)

def controlText : ControlOp InstId → String
  | .nop label => s!" {program.name label}"
  | .exit matched => if matched then " true" else " false"
  | .move shift => s!" {shift}"
  | .jump target => s!" {target.label}"
  | .call target after rule => s!" {program.name rule} {target.label} ret {after.label}"
  | .alt failure => s!" {failure.label}"
  | .pos => ""
  | .back => ""
  | .ret => ""
  | .succ => ""
  | .fail => ""
  | .guard => ""
  | .step => ""

def dispatchText? (id : DispatchId) : Option String :=
  (program.dispatch? id).map fun table =>
    " [" ++ ", ".intercalate (table.targets.toList.map InstId.label) ++ "]"

def treeText? : TreeOp → Option String
  | .node shift => some s!" {shift}"
  | .close shift tag none => some s!" {shift} #{program.name tag}"
  | .close shift tag (some value) =>
    (program.literalText? value).map fun text => s!" {shift} #{program.name tag} `{text}`"
  | .tag tag => some s!" #{program.name tag}"
  | .replace value => (program.literalText? value).map fun text => s!" `{text}`"
  | .fold shift label => some s!" {shift} ${program.name label}"
  | .pop label => some s!" ${program.name label}"
  | .emit label => some s!" ${program.name label}"
  | .push => some ""
  | .checkpoint => some ""

def bindingText? : BindingOp → Option String
  | .mask table => some s!" {program.name table}"
  | .define table => some s!" {program.name table}"
  | .bound table => some s!" {program.name table}"
  | .consume table => some s!" {program.name table}"
  | .isLatest table => some s!" {program.name table}"
  | .isVisible table => some s!" {program.name table}"
  | .holds table lit =>
    (program.literalText? lit).map fun text => s!" {program.name table} \"{text}\""
  | .enter => some ""
  | .leave => some ""

def countText : CountOp InstId → String
  | .scan mask shift => s!" {hexText mask.toNat} {shift}"
  | .dec done => s!" {done.label}"

def memoText? : MemoOp InstId → Option String
  | .lookup point skip => (program.memoName? point).map fun name => s!" {name} {skip.label}"
  | .treeLookup point label skip =>
    (program.memoName? point).map fun name => s!" {name} ${program.name label} {skip.label}"
  | .store point => (program.memoName? point).map fun name => s!" {name}"
  | .storeFailure point => (program.memoName? point).map fun name => s!" {name}"
  | .treeStore point => (program.memoName? point).map fun name => s!" {name}"

/-- The operands of an operation, each behind a blank; none where a pool lacks one of them. -/
def operands? : Op InstId → Option String
  | .control op => some (program.controlText op)
  | .test pattern _ => program.patternText? pattern
  | .dispatch table _ => program.dispatchText? table
  | .tree op => program.treeText? op
  | .bindings op => program.bindingText? op
  | .count op => some (countText op)
  | .memo op => program.memoText? op

/-! ### Lines -/

def padRight (width : Nat) (text : String) : String :=
  text ++ String.ofList (List.replicate (width - text.length) ' ')

def line? (place : InstId) (inst : Inst InstId) : Option String :=
  (program.operands? inst.op).map fun operands =>
    let arrow :=
      if inst.op.usesNext ∧ inst.next ≠ place.succ then s!" -> {inst.next.label}" else ""
    let mark := if place = program.start then "  ; start" else ""
    s!"{padRight 5 place.label} {inst.op.mnemonic}{operands}{arrow}{mark}"

def lines? (place : InstId) : List (Inst InstId) → Option (List String)
  | [] => some []
  | inst :: rest =>
    match program.line? place inst, lines? place.succ rest with
    | some line, some lines => some (line :: lines)
    | _, _ => none

def listing? : Option String :=
  (program.lines? ⟨0⟩ program.insts.toList).map ("\n".intercalate ·)

def listing : String := program.listing?.getD ""

end Program

end Packrat
