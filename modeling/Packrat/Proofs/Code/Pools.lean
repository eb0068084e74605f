/-
Pools by the uses of their entries. The map of a pool and its entries are inverse to each other, and
interning keeps them so; a pool in step is therefore known by its entries. These are the entries
that were used, without repetition, in the order of their first use, and an entry is found under the
number of different entries that were used before it.
-/

import Mathlib.Data.List.Induction
import Packrat.Code.Pool

namespace Packrat

variable {α : Type}

/-! ### First uses -/

variable [BEq α] [LawfulBEq α]

/-- How many different entries are used before an entry is used for the first time. -/
def firstUse (used : List α) (entry : α) : Nat :=
  (used.takeWhile fun other => other != entry).eraseDups.length

/-- Later uses leave the number of an entry as it is. -/
theorem firstUse_append {used : List α} {entry : α} (known : entry ∈ used) (more : List α) :
    firstUse (used ++ more) entry = firstUse used entry := by
  unfold firstUse
  rw [List.takeWhile_append, if_neg]
  intro full
  have whole := (List.takeWhile_prefix fun other => other != entry).eq_of_length full
  have differs : (used.takeWhile fun other => other != entry).all (· != entry) = true :=
    List.all_takeWhile
  rw [whole] at differs
  exact bne_iff_ne.mp (List.all_eq_true.mp differs entry known) rfl

/-- An entry that is new gets the next number. -/
theorem firstUse_snoc {used : List α} {entry : α} (unknown : entry ∉ used) :
    firstUse (used ++ [entry]) entry = used.eraseDups.length := by
  unfold firstUse
  rw [List.takeWhile_append_of_pos, List.takeWhile_cons_of_neg, List.append_nil]
  · simp
  · intro other member
    exact bne_iff_ne.mpr fun same => unknown (same ▸ member)

theorem eraseDups_snoc (entries : List α) (entry : α) :
    (entries ++ [entry]).eraseDups =
      if entry ∈ entries then entries.eraseDups else entries.eraseDups ++ [entry] := by
  rw [List.eraseDups_append]
  by_cases known : entry ∈ entries
  · have removed : [entry].removeAll entries = [] := by simp [List.removeAll, known]
    rw [if_pos known, removed, List.eraseDups_nil, List.append_nil]
  · have kept : [entry].removeAll entries = [entry] := by simp [List.removeAll, known]
    rw [if_neg known, kept]
    rfl

theorem length_eraseDups_append (entries more : List α) :
    entries.eraseDups.length ≤ (entries ++ more).eraseDups.length := by
  rw [List.eraseDups_append, List.length_append]
  exact Nat.le_add_right _ _

/-- Without repetition, an entry stands at the number of its first use. -/
theorem getElem?_firstUse {used : List α} {entry : α} (known : entry ∈ used) :
    used.eraseDups[firstUse used entry]? = some entry := by
  induction used using List.reverseRecOn with
  | nil => cases known
  | append_singleton used last ih =>
      rw [eraseDups_snoc]
      by_cases there : entry ∈ used
      · rw [firstUse_append there]
        split
        · exact ih there
        · rw [List.getElem?_append_left (List.getElem?_eq_some_iff.mp (ih there)).1, ih there]
      · obtain rfl : entry = last := by simpa [there] using known
        rw [if_neg there, firstUse_snoc there, List.getElem?_concat_length]

variable [Hashable α]

namespace Pool

/-! ### The map and the entries -/

/-- A handle stands for an entry exactly if the map sends the entry to it. -/
def InStep (pool : Pool α) : Prop :=
  ∀ entry handle, pool.find? entry = some handle ↔ pool.get? handle = some entry

def add (pool : Pool α) (entry : α) : Pool α :=
  ⟨pool.handles.insert entry pool.size, pool.entries.push entry⟩

variable {pool other : Pool α} {entry : α}

theorem find?_add (pool : Pool α) (entry sought : α) :
    (pool.add entry).find? sought =
      if entry == sought then some pool.size else pool.find? sought :=
  Std.ExtHashMap.getElem?_insert

theorem get?_add (pool : Pool α) (entry : α) (handle : Nat) :
    (pool.add entry).get? handle =
      if handle = pool.size then some entry else pool.get? handle :=
  Array.getElem?_push

omit [LawfulBEq α] in
theorem get?_size (pool : Pool α) : pool.get? pool.size = none :=
  Array.getElem?_eq_none (Nat.le_refl pool.size)

theorem inStep_empty : (empty : Pool α).InStep := by
  intro entry handle
  rw [find?, empty, Std.ExtHashMap.getElem?_empty, get?]
  simp

theorem InStep.add (inStep : pool.InStep) (new : pool.find? entry = none) :
    (pool.add entry).InStep := by
  intro sought handle
  rw [find?_add, get?_add]
  by_cases same : entry == sought <;> by_cases last : handle = pool.size
  · rw [if_pos same, if_pos last, eq_of_beq same, last]
    exact iff_of_true rfl rfl
  · rw [if_pos same, if_neg last, ← inStep, ← eq_of_beq same, new]
    exact iff_of_false (fun there => last (Option.some.inj there).symm) nofun
  · rw [if_neg same, if_pos last, inStep, last, get?_size]
    exact iff_of_false nofun fun there => same (beq_iff_eq.mpr (Option.some.inj there))
  · rw [if_neg same, if_neg last]
    exact inStep sought handle

/-- The handle is the one in the map, or else the next one if there is one. -/
theorem intern_eq (title : String) (max : Nat) (pool : Pool α) (entry : α) :
    pool.intern title max entry =
      match pool.find? entry with
      | some handle => .ok (handle, pool)
      | none =>
        if pool.size ≤ max then .ok (pool.size, pool.add entry)
        else .error ⟨title, pool.size, max⟩ := by
  unfold intern
  cases pool.find? entry with
  | some handle => rfl
  | none =>
      by_cases room : pool.size ≤ max
      · simp only [nextHandle, room, if_true]
        rfl
      · simp only [nextHandle, room, if_false]

/-- Interning keeps the map and the entries in step, and the handle that it gives is that of the
entry in both. -/
theorem InStep.intern {title : String} {max handle : Nat} (inStep : pool.InStep)
    (interned : pool.intern title max entry = .ok (handle, other)) :
    other.InStep ∧ other.find? entry = some handle := by
  rw [intern_eq] at interned
  split at interned
  · next found =>
      cases interned
      exact ⟨inStep, found⟩
  · next new =>
      split at interned
      · cases interned
        refine ⟨inStep.add new, ?_⟩
        rw [find?_add, if_pos BEq.rfl]
      · cases interned

/-- Pools in step are told apart by their entries. -/
theorem InStep.eq_of_entries (inStep : pool.InStep) (inStep' : other.InStep)
    (same : pool.entries = other.entries) : pool = other := by
  have handles : pool.handles = other.handles := by
    refine Std.ExtHashMap.ext_getElem? fun entry => Option.ext fun handle => ?_
    have found : pool.get? handle = other.get? handle := congrArg (·[handle]?) same
    exact (inStep entry handle).trans (found ▸ (inStep' entry handle).symm)
  cases pool
  cases other
  cases handles
  cases same
  rfl

/-! ### Entries in the order of their first use -/

def ofUsed (used : List α) : Pool α := used.eraseDups.foldl add empty

theorem ofUsed_known {used : List α} (known : entry ∈ used) :
    ofUsed (used ++ [entry]) = ofUsed used := by
  rw [ofUsed, eraseDups_snoc, if_pos known]
  rfl

theorem ofUsed_unknown {used : List α} (unknown : entry ∉ used) :
    ofUsed (used ++ [entry]) = (ofUsed used).add entry := by
  rw [ofUsed, eraseDups_snoc, if_neg unknown, List.foldl_append]
  rfl

theorem entries_ofUsed (used : List α) : (ofUsed used).entries = used.eraseDups.toArray := by
  induction used using List.reverseRecOn with
  | nil => rfl
  | append_singleton used last ih =>
      rw [eraseDups_snoc]
      by_cases known : last ∈ used
      · rw [ofUsed_known known, ih, if_pos known]
      · rw [ofUsed_unknown known, add, ih, if_neg known, List.push_toArray]

theorem mk_ofUsed (used : List α) :
    (⟨(ofUsed used).handles, used.eraseDups.toArray⟩ : Pool α) = ofUsed used := by
  rw [← entries_ofUsed]

theorem size_ofUsed (used : List α) : (ofUsed used).size = used.eraseDups.length := by
  rw [size, entries_ofUsed, List.size_toArray]

theorem get?_ofUsed (used : List α) (handle : Nat) :
    (ofUsed used).get? handle = used.eraseDups[handle]? := by
  rw [get?, entries_ofUsed, List.getElem?_toArray]

theorem mem_of_get? {used : List α} {handle : Nat}
    (found : (ofUsed used).get? handle = some entry) : entry ∈ used := by
  rw [get?_ofUsed] at found
  exact List.mem_eraseDups.mp (List.mem_of_getElem? found)

theorem inStep_ofUsed (used : List α) : (ofUsed used).InStep := by
  induction used using List.reverseRecOn with
  | nil => exact inStep_empty
  | append_singleton used last ih =>
      by_cases known : last ∈ used
      · rw [ofUsed_known known]
        exact ih
      · rw [ofUsed_unknown known]
        refine ih.add (Option.eq_none_iff_forall_not_mem.mpr fun handle found => known ?_)
        exact mem_of_get? ((ih last handle).mp found)

theorem get?_firstUse {used : List α} (known : entry ∈ used) :
    (ofUsed used).get? (firstUse used entry) = some entry := by
  rw [get?_ofUsed, getElem?_firstUse known]

/-- A pool finds the entries that were used, under their numbers. -/
theorem find?_ofUsed (used : List α) (entry : α) :
    (ofUsed used).find? entry = if entry ∈ used then some (firstUse used entry) else none := by
  split
  · next known => exact (inStep_ofUsed used entry _).mpr (get?_firstUse known)
  · next unknown =>
      refine Option.eq_none_iff_forall_not_mem.mpr fun handle found => unknown ?_
      exact mem_of_get? ((inStep_ofUsed used entry handle).mp found)

/-- Every handle of a pool is the number of an entry. -/
theorem exists_firstUse {used : List α} {handle : Nat} (inside : handle < (ofUsed used).size) :
    ∃ entry ∈ used, firstUse used entry = handle := by
  have found : (ofUsed used).get? handle = some _ := Array.getElem?_eq_getElem inside
  have known := mem_of_get? found
  have number := (inStep_ofUsed used _ handle).mpr found
  rw [find?_ofUsed, if_pos known] at number
  exact ⟨_, known, Option.some.inj number⟩

/-- An entry that was used before, or for which there is room, gets its number and is in the pool
from then on. -/
theorem intern_ofUsed (title : String) (max : Nat) (used : List α) (entry : α) :
    (ofUsed used).intern title max entry =
      if entry ∈ used ∨ (ofUsed used).size ≤ max then
        .ok (firstUse (used ++ [entry]) entry, ofUsed (used ++ [entry]))
      else .error ⟨title, (ofUsed used).size, max⟩ := by
  rw [intern_eq, find?_ofUsed]
  by_cases known : entry ∈ used
  · simp only [known, if_true, true_or, ofUsed_known known, firstUse_append known]
  · simp only [known, if_false, false_or, ofUsed_unknown known, firstUse_snoc known, size_ofUsed]

/-- A pool with room takes an entry. -/
theorem intern_room {max : Nat} {used : List α} (title : String) (entry : α)
    (room : used.eraseDups.length ≤ max) :
    ∃ handle, (ofUsed used).intern title max entry = .ok (handle, ofUsed (used ++ [entry])) := by
  have free : (ofUsed used).size ≤ max := size_ofUsed used ▸ room
  exact ⟨_, (intern_ofUsed title max used entry).trans (if_pos (.inr free))⟩

end Pool

end Packrat
