/-
Lookups without an answer along a run. A lookup is answered by the table or it is a miss; the
course of a run is its path with the misses on the way, in the order in which they came, and the
counter of a memo point counts those that are its own.
-/

import Mathlib.Data.List.Nodup
import Packrat.Proofs.Machine.Invariant

namespace Packrat

namespace Machine

variable {σ τ : Type} {task : Task σ τ}

/-! ### Misses -/

def missOf (program : Program) (op : Op InstId) (m : Machine σ τ) : Option (MemoId × Nat) :=
  op.lookedUp?.bind fun id =>
    (program.memoPoint? id).bind fun info =>
      if (m.memo.find m.pos id (m.memoState info)).1.isSome then none else some (id, m.pos)

def miss? (program : Program) (place : InstId) (m : Machine σ τ) : Option (MemoId × Nat) :=
  (program.inst? place).bind fun inst => missOf program inst.op m

def misses (task : Task σ τ) : (fuel : Nat) → InstId → Machine σ τ → List (MemoId × Nat)
  | 0, _, _ => []
  | fuel + 1, place, m =>
    (miss? task.program place m).toList ++
      match m.step task place with
      | .halt _ _ => []
      | .goto target m => misses task fuel target m

inductive Course (task : Task σ τ) : (place : InstId) → (m : Machine σ τ) →
    (missed : List (MemoId × Nat)) → (target : InstId) → (m' : Machine σ τ) → Prop
  | refl (place : InstId) (m : Machine σ τ) : Course task place m [] place m
  | head {place next target : InstId} {m m₁ m' : Machine σ τ} {missed : List (MemoId × Nat)}
      (first : m.step task place = .goto next m₁) (rest : Course task next m₁ missed target m') :
      Course task place m ((miss? task.program place m).toList ++ missed) target m'

namespace Course

variable {place middle target : InstId} {m m₁ m' : Machine σ τ} {missed more : List (MemoId × Nat)}

theorem trans (first : Course task place m missed middle m₁)
    (rest : Course task middle m₁ more target m') :
    Course task place m (missed ++ more) target m' := by
  induction first with
  | refl => exact rest
  | head step _ ih =>
      rw [List.append_assoc]
      exact .head step (ih rest)

theorem reaches (course : Course task place m missed target m') :
    Reaches task place m target m' := by
  induction course with
  | refl place m => exact .refl place m
  | head step _ ih => exact .head step ih

/-- A run that halts behind the course misses what the course does, so far as it has come. -/
theorem misses_halt {reason : Halt} (course : Course task place m missed target m₁)
    (halts : m₁.step task target = .halt reason m') (silent : miss? task.program target m₁ = none)
    (fuel : Nat) : (misses task fuel place m).Sublist missed := by
  induction course generalizing fuel with
  | refl place m =>
      cases fuel with
      | zero => exact .slnil
      | succ fuel =>
          simp only [misses, halts, silent]
          exact .slnil
  | head step _ ih =>
      cases fuel with
      | zero => exact List.nil_sublist _
      | succ fuel =>
          simp only [misses, step]
          exact (ih halts silent fuel).append_left _

end Course

theorem point_of_miss {place : InstId} {m : Machine σ τ} {key : MemoId × Nat}
    (missed : miss? task.program place m = some key) :
    key.1.index < task.program.memoPoints.size := by
  obtain ⟨inst, _, missed⟩ := Option.bind_eq_some_iff.mp missed
  obtain ⟨id, _, missed⟩ := Option.bind_eq_some_iff.mp missed
  obtain ⟨info, resolved, missed⟩ := Option.bind_eq_some_iff.mp missed
  obtain ⟨within, _⟩ := Array.getElem?_eq_some_iff.mp resolved
  by_cases answered : (m.memo.find m.pos id (m.memoState info)).1.isSome = true
  · rw [if_pos answered] at missed
    cases missed
  · rw [if_neg answered] at missed
    cases missed
    exact within

/-- What is missed on the way is missed by memo points of the program. -/
theorem Course.points {place target : InstId} {m m' : Machine σ τ} {missed : List (MemoId × Nat)}
    (course : Course task place m missed target m') :
    ∀ key ∈ missed, key.1.index < task.program.memoPoints.size := by
  induction course with
  | refl place m =>
      intro key member
      cases member
  | head step _ ih =>
      intro key member
      rcases List.mem_append.mp member with early | late
      · exact point_of_miss (Option.mem_toList.mp early)
      · exact ih key late

/-! ### Counting -/

def missCount? (m : Machine σ τ) (index : Nat) : Option Nat :=
  m.stats.points[index]?.map PointStats.misses

def missesOf (index : Nat) (missed : List (MemoId × Nat)) : Nat :=
  missed.countP fun miss => miss.1.index = index

/-- A memo point that misses no position twice misses as often as there are positions at most. -/
theorem missesOf_le {missed : List (MemoId × Nat)} {bound : Nat} (distinct : missed.Nodup)
    (within : ∀ key ∈ missed, key.2 ≤ bound) (index : Nat) :
    missesOf index missed ≤ bound + 1 := by
  let own := missed.filter fun miss => miss.1.index = index
  have named (key : MemoId × Nat) (member : key ∈ own) : key ∈ missed ∧ key.1 = ⟨index⟩ := by
    obtain ⟨missed, named⟩ := List.mem_filter.mp member
    exact ⟨missed, congrArg MemoId.mk (of_decide_eq_true named)⟩
  have apart : (own.map Prod.snd).Nodup :=
    (distinct.filter _).map_on fun first early second late same =>
      Prod.ext ((named first early).2.trans (named second late).2.symm) same
  have bounded : own.map Prod.snd ⊆ List.range (bound + 1) := by
    intro pos member
    obtain ⟨key, among, rfl⟩ := List.mem_map.mp member
    exact List.mem_range.mpr (Nat.lt_succ_of_le (within key (named key among).1))
  calc
    missesOf index missed = (own.map Prod.snd).length := by
      rw [List.length_map]
      exact List.countP_eq_length_filter
    _ ≤ (List.range (bound + 1)).length := apart.length_le_of_subset bounded
    _ = bound + 1 := List.length_range

section Counting

variable {place target : InstId} {m m' : Machine σ τ} {op : Op InstId}

theorem points_backtrack (stats : RunStats) (saved current head : Nat) :
    (stats.backtrack saved current head).points = stats.points := by
  unfold RunStats.backtrack
  split <;> rfl

theorem Update.points (update : Update task op m m') (silent : op.lookedUp? = none) :
    m'.stats.points = m.stats.points := by
  cases update with
  | tick id change looks =>
      rw [silent] at looks
      cases looks
  | save | back | shift | call | drop | count | alt | renew | cut | consume | append | link
  | checkpoint | emit | enter | leave | define | mask | look | skip | store | storeFailure => rfl

theorem settle_points (place : InstId) (effect : Effect σ τ) :
    (reached (settle place effect)).stats.points = (after effect).stats.points := by
  cases effect with
  | goto target m => rfl
  | halt reason m => rfl
  | fail m =>
      rcases fail_cases m place with failed | same
      · change (reached (m.fail place)).stats.points = m.stats.points
        generalize reached (m.fail place) = m' at failed
        cases failed with
        | idle => exact points_backtrack _ _ _ _
        | resume index point caught found => exact points_backtrack _ _ _ _
      · exact congrArg (fun m : Machine σ τ => m.stats.points) same

theorem countPoint_misses (stats : RunStats) (id index : Nat) (change : PointStats → PointStats)
    {more : Nat} (counts : ∀ stats, (change stats).misses = stats.misses + more) :
    (stats.countPoint id change).points[index]?.map PointStats.misses =
      (stats.points[index]?.map PointStats.misses).map (· + if id = index then more else 0) := by
  unfold RunStats.countPoint
  rw [Array.getElem?_modify]
  by_cases same : id = index
  · rw [if_pos same, if_pos same, Option.map_map, Option.map_map]
    congr 1
    funext stats
    exact counts stats
  · rw [if_neg same, if_neg same]
    exact Option.map_id'.symm

/-- A lookup is counted as a miss exactly where the table has no answer. -/
theorem lookup_counts (m : Machine σ τ) (next skip : InstId) (id : MemoId) (info : MemoPoint)
    (label : Option Symbol) (index : Nat) :
    (after (m.lookup next skip id info label)).missCount? index =
      (m.missCount? index).map
        (· + if id.index = index then
          if (m.memo.find m.pos id (m.memoState info)).1.isSome then 0 else 1
        else 0) := by
  cases found : (m.memo.find m.pos id (m.memoState info)).1 with
  | none =>
      have answer : (m.memo.lookup m.pos id (m.memoState info)).1 = none := found
      simp only [Machine.lookup, answer]
      exact countPoint_misses _ _ _ _ fun _ => rfl
  | some entry =>
      have answer : (m.memo.lookup m.pos id (m.memoState info)).1 = some entry := found
      cases failed : entry.failed with
      | true =>
          simp only [Machine.lookup, answer, failed, if_true]
          exact countPoint_misses _ _ _ _ fun _ => rfl
      | false =>
          simp only [Machine.lookup, answer, failed, Bool.false_eq_true, if_false]
          cases label with
          | none => exact countPoint_misses _ _ _ _ fun _ => rfl
          | some label => exact countPoint_misses _ _ _ _ fun _ => rfl

theorem missOf_looked {program : Program} {id : MemoId} {info : MemoPoint}
    (looks : op.lookedUp? = some id) (known : program.memoPoint? id = some info)
    (m : Machine σ τ) (index : Nat) :
    missesOf index (missOf program op m).toList =
      if id.index = index then
        if (m.memo.find m.pos id (m.memoState info)).1.isSome then 0 else 1
      else 0 := by
  unfold missOf missesOf
  rw [looks, Option.bind_some, known, Option.bind_some]
  by_cases answered : (m.memo.find m.pos id (m.memoState info)).1.isSome = true
  · rw [if_pos answered, if_pos answered, ite_self]
    rfl
  · rw [if_neg answered, if_neg answered, Option.toList_some, List.countP_singleton]
    by_cases same : id.index = index
    · rw [if_pos same, if_pos (decide_eq_true same)]
    · rw [if_neg same, if_neg (fun same' => same (of_decide_eq_true same'))]

theorem memoStep_counts (site : Site) (next : InstId) (m : Machine σ τ) {op : MemoOp InstId}
    {id : MemoId} (looks : (Op.memo op : Op InstId).lookedUp? = some id) (index : Nat) :
    (after (m.memoStep task.program site next op)).missCount? index =
      (m.missCount? index).map
        (· + missesOf index (missOf task.program (.memo op : Op InstId) m).toList) := by
  cases known : task.program.memoPoint? id with
  | none =>
      have silent : missOf task.program (.memo op : Op InstId) m = none := by
        unfold missOf
        rw [looks, Option.bind_some, known, Option.bind_none]
      rw [silent]
      cases op with
      | lookup | treeLookup =>
          cases looks
          simp only [memoStep, Op.memoId?, known]
          exact Option.map_id'.symm
      | store | treeStore | storeFailure => cases looks
  | some info =>
      rw [missOf_looked looks known]
      cases op with
      | lookup | treeLookup =>
          cases looks
          simp only [memoStep, Op.memoId?, known]
          exact lookup_counts m _ _ _ _ _ index
      | store | treeStore | storeFailure => cases looks

theorem exec_counts (place : InstId) (inst : Inst InstId) (m : Machine σ τ) (index : Nat) :
    (after (m.exec task place inst)).missCount? index =
      (m.missCount? index).map (· + missesOf index (missOf task.program inst.op m).toList) := by
  cases looks : inst.op.lookedUp? with
  | none =>
      have silent : missOf task.program inst.op m = none := by
        unfold missOf
        rw [looks, Option.bind_none]
      have kept : (after (m.exec task place inst)).stats.points = m.stats.points :=
        updates_keep (P := fun m' : Machine σ τ => m'.stats.points = m.stats.points)
          (fun _ _ same update => (update.points looks).trans same)
          (exec_leaves task place inst m).updates rfl
      rw [silent, missCount?, kept]
      exact Option.map_id'.symm
  | some id =>
      obtain ⟨op, next⟩ := inst
      cases op with
      | memo op => exact memoStep_counts ⟨place, .memo op⟩ next m looks index
      | control | test | dispatch | tree | bindings | count => cases looks

theorem step_counts (place : InstId) (m : Machine σ τ) (index : Nat) :
    (reached (m.step task place)).missCount? index =
      (m.missCount? index).map (· + missesOf index (miss? task.program place m).toList) := by
  cases found : task.program.inst? place with
  | none =>
      simp only [Machine.step, miss?, found]
      exact Option.map_id'.symm
  | some inst =>
      rw [step_eq found, missCount?, settle_points, miss?, found, Option.bind_some]
      exact exec_counts place inst m index

/-- The counter of a memo point grows by the misses of the point. -/
theorem steps_counts {fuel : Nat} {reason : Halt}
    (halts : steps task fuel place m = some (reason, m')) (index : Nat) :
    m'.missCount? index =
      (m.missCount? index).map (· + missesOf index (misses task fuel place m)) := by
  induction fuel generalizing place m with
  | zero => cases halts
  | succ fuel ih =>
      have counted : (reached (m.step task place)).missCount? index = _ := step_counts place m index
      cases stepped : m.step task place with
      | halt reason' m₁ =>
          simp only [steps, stepped] at halts
          cases halts
          simp only [misses, stepped, List.append_nil]
          rw [stepped] at counted
          exact counted
      | goto target m₁ =>
          simp only [steps, stepped] at halts
          simp only [misses, stepped]
          rw [stepped] at counted
          change m₁.missCount? index = _ at counted
          rw [ih halts, counted, Option.map_map]
          congr 1
          funext count
          unfold missesOf
          rw [List.countP_append]
          exact Nat.add_assoc _ _ _

end Counting

end Machine

end Packrat
