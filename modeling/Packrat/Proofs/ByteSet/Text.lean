/-
Printed byte sets, read back. A text between brackets is read as lexemes, bytes and dashes, and these as
items, single bytes and ranges of bytes. What is printed for a set is read as its maximal runs of
members, so it denotes the set: no character that structures the text stands for itself.
-/

import Packrat.Code.Listing
import Packrat.Proofs.ByteSet.Members

namespace Packrat.ByteSet

/-! ### Reading -/

def hexValue? (c : Char) : Option Nat :=
  if '0' ≤ c ∧ c ≤ '9' then some (c.toNat - 48)
  else if 'a' ≤ c ∧ c ≤ 'f' then some (c.toNat - 87)
  else none

/-- What stands between the brackets of a printed set: bytes, and dashes between two of them. -/
inductive Lexeme where
  | byte (b : UInt8)
  | dash
deriving DecidableEq, Repr

def standsAlone (c : Char) : Bool :=
  '!' ≤ c && c ≤ '~' && c ≠ ']' && c ≠ '\\' && c ≠ '-'

/-- The lexemes up to the bracket that closes the text; none if the text is not made of lexemes, or goes
on behind the bracket. -/
def lexemes? : List Char → Option (List Lexeme)
  | [] => none
  | [']'] => some []
  | '-' :: rest => (lexemes? rest).map (.dash :: ·)
  | '\\' :: 'x' :: high :: low :: rest =>
    match hexValue? high, hexValue? low with
    | some high, some low =>
      (lexemes? rest).map (.byte (UInt8.ofNat (16 * high + low)) :: ·)
    | _, _ => none
  | c :: rest =>
    if standsAlone c then (lexemes? rest).map (.byte (UInt8.ofNat c.toNat) :: ·) else none

def items? : List Lexeme → Option (List (UInt8 × UInt8))
  | [] => some []
  | .byte low :: .dash :: .byte high :: rest => (items? rest).map ((low, high) :: ·)
  | .byte b :: rest => (items? rest).map ((b, b) :: ·)
  | .dash :: _ => none

def itemsOf? : List Char → Option (List (UInt8 × UInt8))
  | '[' :: rest => (lexemes? rest).bind items?
  | _ => none

def ofText? (text : String) : Option ByteSet :=
  (itemsOf? text.toList).map ofRanges

/-! ### Tokens -/

theorem hexValue?_hexDigit : ∀ n < 16, hexValue? (Ascii.hexDigit n) = some n := by decide

def isPlain (b : UInt8) : Bool :=
  Ascii.isGraphic b && b ≠ 0x5d && b ≠ 0x5c && b ≠ 0x2d

theorem standsAlone_char : ∀ n < 128, isPlain (UInt8.ofNat n) = true →
    standsAlone (Char.ofNat n) = true ∧ (Char.ofNat n).toNat = n := by
  decide +kernel

theorem lexemes?_alone {c : Char} (alone : standsAlone c = true) (rest : List Char) :
    lexemes? (c :: rest) = (lexemes? rest).map (.byte (UInt8.ofNat c.toNat) :: ·) := by
  have ordinary := alone
  simp only [standsAlone, Bool.and_eq_true, decide_eq_true_iff] at ordinary
  obtain ⟨⟨⟨_, bracket⟩, backslash⟩, dash⟩ := ordinary
  rw [lexemes?.eq_def]
  split
  · next same => cases same
  · next same => cases same; exact absurd rfl bracket
  · next same => cases same; exact absurd rfl dash
  · next same => cases same; exact absurd rfl backslash
  · next same =>
      cases same
      rw [if_pos alone]

/-- A token is read back, whatever follows it. -/
theorem lexemes?_token (b : UInt8) (rest : List Char) :
    lexemes? (token b ++ rest) = (lexemes? rest).map (.byte b :: ·) := by
  cases plain : isPlain b with
  | true =>
      have written : token b = [Char.ofNat b.toNat] := if_pos plain
      have ascii : b.toNat < 128 := by
        have visible := plain
        simp only [isPlain, Ascii.isGraphic, Bool.and_eq_true, decide_eq_true_iff,
          UInt8.le_iff_toNat_le] at visible
        exact Nat.lt_of_le_of_lt visible.1.1.1.2 (by decide)
      obtain ⟨alone, same⟩ := standsAlone_char b.toNat ascii (by rw [UInt8.ofNat_toNat, plain])
      rw [written, List.singleton_append, lexemes?_alone alone, same, UInt8.ofNat_toNat]
  | false =>
      have written : token b = Ascii.hexEscape b := if_neg (ne_true_of_eq_false plain)
      have high := hexValue?_hexDigit (b.toNat / 16) (Nat.div_lt_of_lt_mul b.toNat_lt)
      have low := hexValue?_hexDigit (b.toNat % 16) (Nat.mod_lt _ (by decide))
      rw [written, Ascii.hexEscape]
      simp only [List.cons_append, List.nil_append, lexemes?, high, low, Nat.div_add_mod,
        UInt8.ofNat_toNat]

/-! ### Items -/

def runLexemes (run : UInt8 × UInt8) : List Lexeme :=
  if run.1 = run.2 then [.byte run.1] else [.byte run.1, .dash, .byte run.2]

theorem lexemes?_runText (run : UInt8 × UInt8) (rest : List Char) :
    lexemes? (runText run ++ rest) = (lexemes? rest).map (runLexemes run ++ ·) := by
  unfold runText runLexemes
  split
  · exact lexemes?_token run.1 rest
  · rw [List.append_assoc, List.cons_append, lexemes?_token, lexemes?, lexemes?_token,
      Option.map_map, Option.map_map]
    rfl

theorem lexemes?_runs (items : List (UInt8 × UInt8)) :
    lexemes? (items.flatMap runText ++ [']']) = some (items.flatMap runLexemes) := by
  induction items with
  | nil => rfl
  | cons run rest ih =>
      rw [List.flatMap_cons, List.append_assoc, lexemes?_runText, ih, List.flatMap_cons]
      rfl

theorem items?_byte (b : UInt8) (items : List (UInt8 × UInt8)) :
    items? (.byte b :: items.flatMap runLexemes) =
      (items? (items.flatMap runLexemes)).map ((b, b) :: ·) := by
  cases items with
  | nil => rfl
  | cons run rest =>
      rw [List.flatMap_cons, runLexemes]
      split <;> rfl

theorem items?_runs (items : List (UInt8 × UInt8)) :
    items? (items.flatMap runLexemes) = some items := by
  induction items with
  | nil => rfl
  | cons run rest ih =>
      obtain ⟨low, high⟩ := run
      rw [List.flatMap_cons, runLexemes]
      by_cases single : low = high
      · rw [if_pos single, List.singleton_append, items?_byte, ih, Option.map_some, single]
      · rw [if_neg single, List.cons_append, List.cons_append, List.singleton_append, items?, ih,
          Option.map_some]

/-! ### Runs -/

structure MaximalRun (set : ByteSet) (run : UInt8 × UInt8) : Prop where
  ordered : run.1 ≤ run.2
  inside : ∀ b, run.1 ≤ b → b ≤ run.2 → set.contains b = true
  before : ∀ b, b.toNat + 1 = run.1.toNat → set.contains b = false
  after : ∀ b, b.toNat = run.2.toNat + 1 → set.contains b = false

def Covers (run : UInt8 × UInt8) (b : UInt8) : Prop := run.1 ≤ b ∧ b ≤ run.2

/-- The first run ends before the second one, and not next to it. -/
def Apart (run next : UInt8 × UInt8) : Prop := run.2.toNat + 1 < next.1.toNat

/-- Runs in ascending order, with a gap between any two of them, over all members of a set and nothing
else. -/
structure Partitions (items : List (UInt8 × UInt8)) (members : UInt8 → Prop) : Prop where
  ordered : ∀ run ∈ items, run.1 ≤ run.2
  apart : items.Pairwise Apart
  covers : ∀ b, (∃ run ∈ items, Covers run b) ↔ members b

theorem covers_self (b other : UInt8) : Covers (b, b) other ↔ other = b := by
  simp only [Covers, UInt8.le_iff_toNat_le, ← UInt8.toNat_inj]
  omega

/-- A byte with a gap behind it is a run of its own. -/
theorem Partitions.front {items : List (UInt8 × UInt8)} {members : UInt8 → Prop}
    (parts : Partitions items members) {b : UInt8} (gaps : ∀ run ∈ items, Apart (b, b) run) :
    Partitions ((b, b) :: items) fun other => other = b ∨ members other := by
  refine ⟨?_, List.pairwise_cons.mpr ⟨gaps, parts.apart⟩, fun other => ?_⟩
  · intro run member
    rcases List.mem_cons.mp member with rfl | member
    · exact UInt8.le_refl b
    · exact parts.ordered run member
  · rw [List.exists_mem_cons_iff, covers_self, parts.covers]

/-- A byte right before the first run joins it. -/
theorem Partitions.join {low high : UInt8} {more : List (UInt8 × UInt8)} {members : UInt8 → Prop}
    (parts : Partitions ((low, high) :: more) members) {b : UInt8}
    (next : low.toNat = b.toNat + 1) :
    Partitions ((b, high) :: more) fun other => other = b ∨ members other := by
  have inside : low.toNat ≤ high.toNat :=
    UInt8.le_iff_toNat_le.mp (parts.ordered (low, high) List.mem_cons_self)
  have joined (other : UInt8) : Covers (b, high) other ↔ other = b ∨ Covers (low, high) other := by
    simp only [Covers, UInt8.le_iff_toNat_le, ← UInt8.toNat_inj]
    omega
  obtain ⟨gaps, apart⟩ := List.pairwise_cons.mp parts.apart
  refine ⟨?_, List.pairwise_cons.mpr ⟨gaps, apart⟩, fun other => ?_⟩
  · intro run member
    rcases List.mem_cons.mp member with rfl | member
    · rw [UInt8.le_iff_toNat_le]
      dsimp only
      omega
    · exact parts.ordered run (List.mem_cons_of_mem _ member)
  · rw [← parts.covers other, List.exists_mem_cons_iff, List.exists_mem_cons_iff, joined, or_assoc]

/-- An ascending list is partitioned into its runs. -/
theorem partitions_runs {bytes : List UInt8} (ascending : bytes.Pairwise (· < ·)) :
    Partitions (runs bytes) (· ∈ bytes) := by
  induction bytes with
  | nil => exact ⟨nofun, .nil, fun b => by simp only [runs, List.not_mem_nil, false_and, exists_false]⟩
  | cons b rest ih =>
      obtain ⟨least, ascending⟩ := List.pairwise_cons.mp ascending
      have parts := ih ascending
      simp only [List.mem_cons]
      rw [runs]
      cases shape : runs rest with
      | nil =>
          rw [shape] at parts
          exact parts.front nofun
      | cons first more =>
          obtain ⟨low, high⟩ := first
          rw [shape] at parts
          have inside := parts.ordered (low, high) List.mem_cons_self
          have above : b < low :=
            least low ((parts.covers low).mp ⟨_, List.mem_cons_self, UInt8.le_refl low, inside⟩)
          dsimp only
          by_cases next : low.toNat = b.toNat + 1
          · rw [if_pos next]
            exact parts.join next
          · rw [if_neg next]
            refine parts.front fun run member => ?_
            rw [UInt8.lt_iff_toNat_lt] at above
            rw [UInt8.le_iff_toNat_le] at inside
            unfold Apart
            rcases List.mem_cons.mp member with rfl | member
            · dsimp only
              omega
            · have gap := (List.pairwise_cons.mp parts.apart).1 run member
              unfold Apart at gap
              dsimp only at gap inside ⊢
              omega

/-- Of two different runs of a partition one lies behind the other. -/
theorem Partitions.apart_of_ne {items : List (UInt8 × UInt8)} {members : UInt8 → Prop}
    (parts : Partitions items members) {run next : UInt8 × UInt8} (first : run ∈ items)
    (second : next ∈ items) : run = next ∨ Apart run next ∨ Apart next run := by
  have apart := parts.apart
  clear parts
  induction items with
  | nil => cases first
  | cons head rest ih =>
      obtain ⟨gaps, apart⟩ := List.pairwise_cons.mp apart
      rcases List.mem_cons.mp first with rfl | earlier <;>
        rcases List.mem_cons.mp second with rfl | later
      · exact .inl rfl
      · exact .inr (.inl (gaps next later))
      · exact .inr (.inr (gaps run earlier))
      · exact ih earlier later apart

/-- A maximal run reaches as far as any run of members that it meets. -/
theorem MaximalRun.includes {set : ByteSet} {run other : UInt8 × UInt8} {b : UInt8}
    (maximal : MaximalRun set run) (covers : Covers run b) (covers' : Covers other b)
    (inside : ∀ c, other.1 ≤ c → c ≤ other.2 → set.contains c = true) :
    run.1 ≤ other.1 ∧ other.2 ≤ run.2 := by
  obtain ⟨above, below⟩ := covers
  obtain ⟨above', below'⟩ := covers'
  have bound := run.1.toNat_lt
  have bound' := other.2.toNat_lt
  simp only [UInt8.le_iff_toNat_le] at above below above' below' inside ⊢
  constructor
  · refine Nat.le_of_not_lt fun less => ?_
    have previous : (UInt8.ofNat (run.1.toNat - 1)).toNat = run.1.toNat - 1 := by
      rw [UInt8.toNat_ofNat']
      omega
    have member := inside (UInt8.ofNat (run.1.toNat - 1)) (by omega) (by omega)
    rw [maximal.before _ (by omega)] at member
    cases member
  · refine Nat.le_of_not_lt fun less => ?_
    have next : (UInt8.ofNat (run.2.toNat + 1)).toNat = run.2.toNat + 1 := by
      rw [UInt8.toNat_ofNat']
      omega
    have member := inside (UInt8.ofNat (run.2.toNat + 1)) (by omega) (by omega)
    rw [maximal.after _ next] at member
    cases member

theorem MaximalRun.unique {set : ByteSet} {run other : UInt8 × UInt8} {b : UInt8}
    (maximal : MaximalRun set run) (maximal' : MaximalRun set other) (covers : Covers run b)
    (covers' : Covers other b) : run = other := by
  obtain ⟨start, stop⟩ := maximal.includes covers covers' maximal'.inside
  obtain ⟨start', stop'⟩ := maximal'.includes covers' covers maximal.inside
  exact Prod.ext (UInt8.le_antisymm start start') (UInt8.le_antisymm stop' stop)

namespace Partitions

variable {items : List (UInt8 × UInt8)} {set : ByteSet}

/-- The runs of a partition are maximal. -/
theorem maximal (parts : Partitions items (set.contains · = true)) {run : UInt8 × UInt8}
    (listed : run ∈ items) : MaximalRun set run := by
  have ordered := parts.ordered run listed
  -- a byte next to the run lies in no run of the list, as all others are apart from this one
  have beside (b : UInt8) (close : b.toNat + 1 = run.1.toNat ∨ b.toNat = run.2.toNat + 1) :
      set.contains b = false := by
    refine Bool.eq_false_iff.mpr fun member => ?_
    obtain ⟨other, listed', above, below⟩ := (parts.covers b).mpr member
    have ordered' := parts.ordered other listed'
    simp only [UInt8.le_iff_toNat_le] at ordered ordered' above below
    rcases parts.apart_of_ne listed listed' with rfl | apart | apart
    · omega
    · unfold Apart at apart
      omega
    · unfold Apart at apart
      omega
  exact ⟨ordered, fun b above below => (parts.covers b).mp ⟨run, listed, above, below⟩,
    fun b close => beside b (.inl close), fun b close => beside b (.inr close)⟩

/-- A partition lists the maximal runs. -/
theorem mem_iff (parts : Partitions items (set.contains · = true)) (run : UInt8 × UInt8) :
    run ∈ items ↔ MaximalRun set run := by
  constructor
  · exact parts.maximal
  · intro maximal
    have start : Covers run run.1 := ⟨UInt8.le_refl _, maximal.ordered⟩
    obtain ⟨other, listed, covers⟩ :=
      (parts.covers run.1).mpr (maximal.inside run.1 start.1 start.2)
    rw [maximal.unique (parts.maximal listed) start covers]
    exact listed

end Partitions

theorem partitions_members (set : ByteSet) :
    Partitions (runs set.members) (set.contains · = true) := by
  have parts := partitions_runs set.members_ascend
  exact ⟨parts.ordered, parts.apart, fun b => (parts.covers b).trans (set.mem_members b)⟩

/-- The ranges of the runs make up the set. -/
theorem ofRanges_runs (set : ByteSet) : ofRanges (runs set.members) = set := by
  refine ext_contains fun b => ?_
  rw [Bool.eq_iff_iff, contains_ofRanges]
  exact set.partitions_members.covers b

/-! ### The result -/

theorem itemsOf?_chars (set : ByteSet) : itemsOf? set.chars = some (runs set.members) := by
  rw [chars, List.cons_append, itemsOf?, lexemes?_runs, Option.bind_some, items?_runs]

theorem toList_text (set : ByteSet) : set.text.toList = set.chars := String.toList_ofList

theorem ofText?_text (set : ByteSet) : ofText? set.text = some set := by
  rw [ofText?, toList_text, itemsOf?_chars, Option.map_some, ofRanges_runs]

/-- The printed form of a byte set says which set it is. Between brackets stands one item for each
maximal run of members, in ascending order, written as its token or as its two ends with a dash
between; reading it gives back these runs and the set; so two sets that are printed alike are equal,
and so are two sets that listings show by the same operand. -/
theorem text_identifies (set : ByteSet) :
    (∃ items : List (UInt8 × UInt8),
      (∀ run, run ∈ items ↔ MaximalRun set run) ∧ items.Pairwise Apart ∧
        set.text.toList = '[' :: items.flatMap runText ++ [']'] ∧
        itemsOf? set.text.toList = some items) ∧
    ofText? set.text = some set ∧
    (∀ other : ByteSet, set.text = other.text → set = other) ∧
    ∀ {t : Type} (code code' : Code t) (id id' : SetId) (text : String),
      code.byteSet? id = some set → code.patternText? (.set id) = some text →
      code'.patternText? (.set id') = some text → code'.byteSet? id' = some set := by
  have parts := set.partitions_members
  have injective (other : ByteSet) (same : set.text = other.text) : set = other := by
    have read := set.ofText?_text
    rw [same, other.ofText?_text, Option.some.injEq] at read
    exact read.symm
  refine ⟨⟨runs set.members, parts.mem_iff, parts.apart, set.toList_text, ?_⟩, set.ofText?_text,
    injective, ?_⟩
  · rw [toList_text, itemsOf?_chars]
  · intro t code code' id id' text held shown shown'
    simp only [Code.patternText?, held, Option.map_some, Option.some.injEq] at shown
    simp only [Code.patternText?] at shown'
    obtain ⟨other, held', printed⟩ := Option.map_eq_some_iff.mp shown'
    have letters := congrArg String.toList (shown.trans printed.symm)
    simp only [String.toList_append, List.append_cancel_left_eq, String.toList_inj] at letters
    rw [held', injective other letters]

/-- The first and the last byte and the three that structure the text are members, two of these next to
each other; and another way to make the set is listed alike. -/
theorem text_identifies_delimiters :
    let set := ofBytes #[0xff, 0x5d, 0x2d, 0x00, 0x5c]
    let other := ofRanges [(0x2d, 0x2d), (0x5c, 0x5d), (0x00, 0x00), (0xff, 0xff)]
    let code (held : ByteSet) : Code InstId := ⟨#[], #[empty, held], #[], #[], #[], .initial⟩
    set.text = "[\\x00\\x2d\\x5c-\\x5d\\xff]" ∧ ofText? set.text = some set ∧
      MaximalRun set (0x5c, 0x5d) ∧ (code other).byteSet? ⟨1⟩ = some set := by
  intro set other code
  obtain ⟨⟨items, maximal, _, _, read⟩, known, _, listed⟩ := text_identifies set
  have printed : set.text = "[\\x00\\x2d\\x5c-\\x5d\\xff]" := by decide +kernel
  have shown (held : ByteSet) (same : held = set) :
      (code held).patternText? (.set ⟨1⟩) = some " [\\x00\\x2d\\x5c-\\x5d\\xff]" := by
    rw [same]
    decide +kernel
  have runs : itemsOf? set.text.toList = some [(0x00, 0x00), (0x2d, 0x2d), (0x5c, 0x5d),
      (0xff, 0xff)] := by
    decide +kernel
  cases read.symm.trans runs
  refine ⟨printed, known, (maximal _).mp (by decide), ?_⟩
  exact listed (code set) (code other) ⟨1⟩ ⟨1⟩ _ rfl (shown set rfl)
    (shown other (by decide +kernel))

end Packrat.ByteSet
