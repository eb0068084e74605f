/-
Byte sets as sets. Every operation on the four words does to the members what its name says, so that
after any operations the members are those of the set that the same operations make of the empty one,
and their number, their order and the equality of two byte sets are those of the sets.
-/

import Mathlib.Data.Nat.Bitwise
import Mathlib.Data.Set.Card
import Packrat.Proofs.Code.Interning

namespace Packrat.ByteSet

variable {set other : ByteSet} {b c : UInt8}

/-! ### Bits -/

theorem val_wordIndex (b : UInt8) : (wordIndex b).val = b.toNat / 64 := by
  change (b >>> 6).toNat = b.toNat / 64
  rw [UInt8.toNat_shiftRight, Nat.shiftRight_eq_div_pow]
  rfl

theorem toNat_mask (b : UInt8) : (mask b).toNat = 2 ^ (b.toNat % 64) := by
  have low : b.toNat &&& 63 = b.toNat % 64 := Nat.and_two_pow_sub_one_eq_mod b.toNat 6
  have inside : 2 ^ (b.toNat % 64) < 2 ^ 64 :=
    Nat.pow_lt_pow_right (by decide) (Nat.mod_lt _ (by decide))
  unfold mask
  rw [UInt64.toNat_shiftLeft, UInt8.toNat_toUInt64, UInt8.toNat_and]
  change 1 <<< ((b.toNat &&& 63) % 64) % 2 ^ 64 = _
  rw [low, Nat.mod_mod, Nat.one_shiftLeft, Nat.mod_eq_of_lt inside]

/-- A byte is told by its word and the place in it. -/
theorem eq_of_place (word : wordIndex b = wordIndex c) (place : b.toNat % 64 = c.toNat % 64) :
    b = c := by
  have words := congrArg Fin.val word
  rw [val_wordIndex, val_wordIndex] at words
  apply UInt8.toNat_inj.mp
  omega

/-- Whether the bit of a byte is set in a word. -/
theorem and_mask_ne_zero (word : UInt64) (b : UInt8) :
    (word &&& mask b != 0) = word.toBitVec.getLsbD (b.toNat % 64) := by
  have masked : (word &&& mask b).toNat =
      (word.toNat.testBit (b.toNat % 64)).toNat * 2 ^ (b.toNat % 64) := by
    rw [UInt64.toNat_and, toNat_mask, Nat.and_two_pow]
  change _ = word.toNat.testBit (b.toNat % 64)
  rw [Bool.eq_iff_iff, bne_iff_ne, Ne, ← UInt64.toNat_inj, masked]
  cases word.toNat.testBit (b.toNat % 64) <;> simp

theorem contains_eq (set : ByteSet) (b : UInt8) :
    set.contains b = (set.words.get (wordIndex b)).toBitVec.getLsbD (b.toNat % 64) :=
  and_mask_ne_zero _ b

theorem getLsbD_mask (b : UInt8) (i : Nat) :
    (mask b).toBitVec.getLsbD i = decide (b.toNat % 64 = i) := by
  change (mask b).toNat.testBit i = _
  rw [toNat_mask, Nat.testBit_two_pow]

/-! ### Operations -/

theorem contains_empty (b : UInt8) : empty.contains b = false := by
  have blank : empty.words.get (wordIndex b) = 0 := Vector.getElem_replicate _
  rw [contains_eq, blank]
  exact BitVec.getLsbD_zero

theorem contains_insert (set : ByteSet) (b c : UInt8) :
    (set.insert b).contains c = (decide (c = b) || set.contains c) := by
  rw [contains_eq, contains_eq]
  by_cases word : wordIndex c = wordIndex b
  · have place : decide (b.toNat % 64 = c.toNat % 64) = decide (c = b) := by
      refine decide_eq_decide.mpr ⟨fun place => eq_of_place word place.symm, ?_⟩
      rintro rfl
      rfl
    have here : (set.insert b).words.get (wordIndex b) =
        set.words.get (wordIndex b) ||| mask b :=
      Vector.getElem_set_self _
    rw [word, here, UInt64.toBitVec_or, BitVec.getLsbD_or, getLsbD_mask, place, Bool.or_comm]
  · have apart : (wordIndex b).val ≠ (wordIndex c).val := fun same => word (Fin.ext same.symm)
    have there : (set.insert b).words.get (wordIndex c) = set.words.get (wordIndex c) :=
      Vector.getElem_set_ne (wordIndex b).isLt (wordIndex c).isLt apart
    have differs : c ≠ b := by
      rintro rfl
      exact word rfl
    rw [there, decide_eq_false differs, Bool.false_or]

theorem contains_negate (set : ByteSet) (b : UInt8) : set.negate.contains b = !set.contains b := by
  have place : b.toNat % 64 < 64 := Nat.mod_lt _ (by decide)
  have flipped : set.negate.words.get (wordIndex b) = ~~~set.words.get (wordIndex b) :=
    Vector.getElem_map _ _
  rw [contains_eq, contains_eq, flipped, UInt64.toBitVec_not, BitVec.getLsbD_not,
    decide_eq_true place, Bool.true_and]

/-! ### Whole words -/

def byteAt (word place : Nat) : UInt8 := UInt8.ofNat (64 * word + place)

theorem toNat_byteAt {word place : Nat} (inside : word < 4) (within : place < 64) :
    (byteAt word place).toNat = 64 * word + place := by
  rw [byteAt, UInt8.toNat_ofNat']
  omega

theorem contains_byteAt (set : ByteSet) {word place : Nat} (inside : word < 4)
    (within : place < 64) :
    set.contains (byteAt word place) = set.words[word].toBitVec.getLsbD place := by
  have value := toNat_byteAt inside within
  have index : wordIndex (byteAt word place) = ⟨word, inside⟩ := by
    apply Fin.ext
    rw [val_wordIndex, value]
    change _ = word
    omega
  have rest : (byteAt word place).toNat % 64 = place := by omega
  rw [contains_eq, index, rest]
  rfl

/-- Sets with the same members are equal. -/
theorem ext_contains (same : ∀ b, set.contains b = other.contains b) : set = other := by
  have words : set.words = other.words := by
    apply Vector.ext
    intro word inside
    apply UInt64.toBitVec_inj.mp
    apply BitVec.eq_of_getLsbD_eq
    intro place within
    rw [← contains_byteAt set inside within, ← contains_byteAt other inside within, same]
  cases set
  cases other
  exact congrArg ByteSet.mk words

theorem isEmpty_iff (set : ByteSet) : set.isEmpty = true ↔ ∀ b, set.contains b = false := by
  have zero : set.isEmpty = true ↔ set = empty := by
    unfold isEmpty
    rw [beq_iff_eq]
    cases set
    exact (ByteSet.mk.injEq _ _).symm.to_iff
  rw [zero]
  constructor
  · rintro rfl
    exact contains_empty
  · intro none
    exact ext_contains fun b => (none b).trans (contains_empty b).symm

/-- The bits of a word that are set, counted one by one. -/
theorem toNat_cpop (word : BitVec 64) :
    word.cpop.toNat = (List.range 64).countP word.getLsbD := by
  have partial_count (count : Nat) :
      word.cpopNatRec count 0 = (List.range count).countP word.getLsbD := by
    induction count with
    | zero => rfl
    | succ count ih =>
        rw [BitVec.cpopNatRec_succ, BitVec.cpopNatRec_add, ih, List.range_succ, List.countP_append]
        cases bit : word.getLsbD count <;> simp [bit]
  rw [BitVec.toNat_cpop, partial_count]

theorem allBytes_eq : allBytes =
    (List.range 64).map (byteAt 0) ++ (List.range 64).map (byteAt 1) ++
      (List.range 64).map (byteAt 2) ++ (List.range 64).map (byteAt 3) := by
  decide +kernel

theorem foldl_words {β : Type} (f : β → UInt64 → β) (init : β) (words : Vector UInt64 4) :
    words.foldl f init = f (f (f (f init words[0]) words[1]) words[2]) words[3] := by
  match words with
  | ⟨⟨[_, _, _, _]⟩, _⟩ => rfl

theorem size_eq (set : ByteSet) : set.size = set.members.length := by
  have part {word : Nat} (inside : word < 4) :
      ((List.range 64).map (byteAt word)).countP set.contains =
        set.words[word].toBitVec.cpop.toNat := by
    rw [List.countP_map, toNat_cpop]
    refine List.countP_congr fun place within => ?_
    rw [Function.comp, contains_byteAt set inside (List.mem_range.mp within)]
  rw [members, ← List.countP_eq_length_filter, allBytes_eq]
  simp only [List.countP_append]
  rw [part (by decide), part (by decide), part (by decide), part (by decide)]
  unfold size
  rw [foldl_words, Nat.zero_add]

/-! ### Ranges and lists -/

theorem mem_interval (low high b : UInt8) : b ∈ interval low high ↔ low ≤ b ∧ b ≤ high := by
  have bound := high.toNat_lt
  simp only [interval, List.mem_map, List.mem_range'_1, UInt8.le_iff_toNat_le]
  constructor
  · rintro ⟨n, inside, rfl⟩
    rw [UInt8.toNat_ofNat']
    omega
  · rintro ⟨above, below⟩
    exact ⟨b.toNat, by omega, UInt8.ofNat_toNat⟩

theorem contains_insertAll (set : ByteSet) (bytes : List UInt8) (b : UInt8) :
    (bytes.foldl insert set).contains b = true ↔ b ∈ bytes ∨ set.contains b = true := by
  induction bytes generalizing set with
  | nil => simp only [List.foldl_nil, List.not_mem_nil, false_or]
  | cons first rest ih =>
      rw [List.foldl_cons, ih, contains_insert, Bool.or_eq_true, decide_eq_true_iff, List.mem_cons,
        or_left_comm, or_assoc]

theorem contains_insertRange (set : ByteSet) (low high b : UInt8) :
    (set.insertRange low high).contains b = true ↔
      (low ≤ b ∧ b ≤ high) ∨ set.contains b = true := by
  rw [insertRange, contains_insertAll, mem_interval]

theorem contains_ofBytes (bytes : Bytes) (b : UInt8) :
    (ofBytes bytes).contains b = true ↔ b ∈ bytes := by
  rw [ofBytes, ← Array.foldl_toList, contains_insertAll, contains_empty, Array.mem_toList_iff]
  simp only [Bool.false_eq_true, or_false]

theorem contains_ofRanges (ranges : List (UInt8 × UInt8)) (b : UInt8) :
    (ofRanges ranges).contains b = true ↔ ∃ range ∈ ranges, range.1 ≤ b ∧ b ≤ range.2 := by
  have all (set : ByteSet) : (ranges.foldl (fun set range =>
      set.insertRange range.1 range.2) set).contains b = true ↔
        (∃ range ∈ ranges, range.1 ≤ b ∧ b ≤ range.2) ∨ set.contains b = true := by
    induction ranges generalizing set with
    | nil => simp only [List.foldl_nil, List.not_mem_nil, false_and, exists_false, false_or]
    | cons first rest ih =>
        rw [List.foldl_cons, ih, contains_insertRange, List.exists_mem_cons_iff, or_left_comm,
          or_assoc]
  rw [ofRanges, all, contains_empty]
  simp only [Bool.false_eq_true, or_false]

/-! ### Members in order -/

theorem mem_members (set : ByteSet) (b : UInt8) : b ∈ set.members ↔ set.contains b = true := by
  have listed : b ∈ allBytes :=
    List.mem_map.mpr ⟨b.toNat, List.mem_range.mpr b.toNat_lt, UInt8.ofNat_toNat⟩
  rw [members, List.mem_filter, and_iff_right listed]

theorem allBytes_ascend : allBytes.Pairwise (· < ·) := by
  rw [allBytes, List.pairwise_map]
  refine List.pairwise_lt_range.imp_of_mem fun {m n} inside inside' less => ?_
  rw [List.mem_range] at inside inside'
  rw [UInt8.lt_iff_toNat_lt, UInt8.toNat_ofNat', UInt8.toNat_ofNat']
  omega

theorem members_ascend (set : ByteSet) : set.members.Pairwise (· < ·) :=
  allBytes_ascend.filter _

theorem size_eq_ncard (set : ByteSet) : set.size = {b | set.contains b = true}.ncard := by
  have distinct : set.members.Nodup :=
    set.members_ascend.imp fun less same => absurd (same ▸ less) (UInt8.lt_irrefl _)
  have listed : {b | set.contains b = true} = ↑set.members.toFinset := by
    ext b
    rw [List.coe_toFinset, Set.mem_ofPred_eq, Set.mem_ofPred_eq, mem_members]
  rw [size_eq, listed, Set.ncard_coe_finset, List.toFinset_card_of_nodup distinct]

/-! ### Edits -/

inductive Edit where
  | ofRanges (ranges : List (UInt8 × UInt8))
  | ofBytes (bytes : Bytes)
  | insert (b : UInt8)
  | insertRange (low high : UInt8)
  | negate
deriving DecidableEq, Repr

def edit (set : ByteSet) : Edit → ByteSet
  | .ofRanges ranges => .ofRanges ranges
  | .ofBytes bytes => .ofBytes bytes
  | .insert b => set.insert b
  | .insertRange low high => set.insertRange low high
  | .negate => set.negate

def edited (edits : List Edit) : ByteSet := edits.foldl edit empty

def Edit.change (members : Set UInt8) : Edit → Set UInt8
  | .ofRanges ranges => {b | ∃ range ∈ ranges, range.1 ≤ b ∧ b ≤ range.2}
  | .ofBytes bytes => {b | b ∈ bytes}
  | .insert b => Insert.insert b members
  | .insertRange low high => members ∪ {b | low ≤ b ∧ b ≤ high}
  | .negate => membersᶜ

def denoted (edits : List Edit) : Set UInt8 := edits.foldl Edit.change ∅

/-- One edit does to the members what it says. -/
theorem members_edit (set : ByteSet) (change : Edit) :
    {b | (set.edit change).contains b = true} = change.change {b | set.contains b = true} := by
  ext b
  rw [Set.mem_ofPred_eq]
  cases change with
  | ofRanges ranges => exact contains_ofRanges ranges b
  | ofBytes bytes => exact contains_ofBytes bytes b
  | insert added =>
      rw [edit, contains_insert, Bool.or_eq_true, decide_eq_true_iff]
      exact Iff.rfl
  | insertRange low high =>
      rw [edit, contains_insertRange, or_comm]
      exact Iff.rfl
  | negate =>
      rw [edit, contains_negate, Bool.not_eq_true']
      exact Bool.not_eq_true _ ▸ Iff.rfl

/-- All edits together do. -/
theorem members_edited (edits : List Edit) :
    {b | (edited edits).contains b = true} = denoted edits := by
  have all (set : ByteSet) : {b | (edits.foldl edit set).contains b = true} =
      edits.foldl Edit.change {b | set.contains b = true} := by
    induction edits generalizing set with
    | nil => rfl
    | cons first rest ih => rw [List.foldl_cons, List.foldl_cons, ih, members_edit]
  have nothing : {b | empty.contains b = true} = ∅ := by
    ext b
    rw [Set.mem_ofPred_eq, contains_empty]
    exact iff_of_false Bool.false_ne_true (Set.notMem_empty b)
  rw [edited, all, nothing]
  rfl

theorem eq_iff_members : set = other ↔
    {b | set.contains b = true} = {b | other.contains b = true} := by
  constructor
  · rintro rfl
    rfl
  · intro same
    refine ext_contains fun b => ?_
    rw [Bool.eq_iff_iff]
    exact Set.ext_iff.mp same b

/-! ### The result -/

/-- A byte set is the set of bytes that its edits amount to, whatever they are: it contains what is a
member, counts the members, is empty where there is none, and lists them in ascending order. Two byte
sets are equal exactly if the sets are, and it is exactly then that an assembler, whatever else it is
asked for, gives them one handle. -/
theorem edited_denotes (edits : List Edit) :
    (∀ b, (edited edits).contains b = true ↔ b ∈ denoted edits) ∧
    (edited edits).size = (denoted edits).ncard ∧
    ((edited edits).isEmpty = true ↔ denoted edits = ∅) ∧
    (∀ b, b ∈ (edited edits).members ↔ b ∈ denoted edits) ∧
    (edited edits).members.Pairwise (· < ·) ∧
    ∀ others : List Edit,
      (edited edits = edited others ↔ denoted edits = denoted others) ∧
      ∀ (calls : List Call) (asm : Assembler), Call.assemble? calls = some asm →
        ∀ i j, calls[i]? = some (.byteSet (edited edits)) →
          calls[j]? = some (.byteSet (edited others)) →
          (PoolKind.sets.given? calls i = PoolKind.sets.given? calls j ↔
            denoted edits = denoted others) := by
  have members := members_edited edits
  have contained (b : UInt8) : (edited edits).contains b = true ↔ b ∈ denoted edits := by
    rw [← members]
    exact Iff.rfl
  refine ⟨contained, ?_, ?_, fun b => (mem_members _ b).trans (contained b), members_ascend _,
    fun others => ?_⟩
  · rw [size_eq_ncard, members]
  · rw [isEmpty_iff, Set.eq_empty_iff_forall_notMem]
    refine forall_congr' fun b => ?_
    rw [← contained b, Bool.not_eq_true]
  · have equal : edited edits = edited others ↔ denoted edits = denoted others := by
      rw [eq_iff_members, members, members_edited]
    refine ⟨equal, fun calls asm assembled i j first second => ?_⟩
    rw [← equal]
    refine (PoolKind.sets.interning_of_calls assembled).same i j _ _ ?_ ?_
    · rw [PoolKind.entryAt?, first]
      rfl
    · rw [PoolKind.entryAt?, second]
      rfl

/-- A range that ends at the last byte, negated, and the range below it, with a name put in between: the
two are one set, in one place of the pool. -/
theorem edited_denotes_negated :
    let edits : List Edit := [.insertRange 200 255, .negate, .insertRange 9 8]
    let others : List Edit := [.ofRanges [(64, 199), (0, 63)]]
    let calls : List Call :=
      [.byteSet (edited edits), .intern "a", .byteSet empty, .byteSet (edited others)]
    (edited edits).size = 200 ∧ (denoted edits).ncard = 200 ∧
      PoolKind.sets.given? calls 0 = PoolKind.sets.given? calls 3 ∧
      (edited edits).contains 199 = true ∧ 200 ∉ denoted edits := by
  intro edits others calls
  obtain ⟨contained, counted, _, _, _, compared⟩ := edited_denotes edits
  have size : (edited edits).size = 200 := by decide +kernel
  have fits : Call.Fits calls :=
    ⟨by decide, by decide, by decide +kernel, by decide, by decide, by decide, by decide,
      fun index label found => by rcases index with _ | _ | _ | _ | index <;> cases found⟩
  obtain ⟨asm, assembled, _⟩ := Call.assemble?_follows fits
  obtain ⟨equal, shared⟩ := compared others
  have same : denoted edits = denoted others := equal.mp (by decide +kernel)
  refine ⟨size, counted.symm.trans size, (shared calls asm assembled 0 3 rfl rfl).mpr same,
    by decide +kernel, fun member => ?_⟩
  have above : (edited edits).contains 200 = false := by decide +kernel
  rw [(contained 200).mpr member] at above
  cases above

end Packrat.ByteSet
