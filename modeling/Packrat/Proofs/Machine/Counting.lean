/-
Counted repetition. A number is read from captured bytes, in one machine word, and stands as a counter on
the stack while the body is repeated; the body is entered once for each unit of it. A failure inside the
body gives the counter the value again that it had where the choice point was pushed.
-/

import Mathlib.Data.List.TakeWhile
import Mathlib.Data.Nat.Digits.Defs
import Packrat.Proofs.Machine.Roots
import Packrat.Proofs.Machine.Unwinding

namespace Packrat

/-! ### The number -/

def isDecimal (b : UInt8) : Bool := 0x30 ≤ b && b ≤ 0x39

def decimalPrefix (bytes : List UInt8) : Nat :=
  Nat.ofDigits 10 ((bytes.takeWhile isDecimal).map fun b => b.toNat - 0x30).reverse

def bigEndian (bytes : List UInt8) : Nat :=
  Nat.ofDigits 256 (bytes.map UInt8.toNat).reverse

def repetitions (bytes : Bytes) (mask : UInt64) (shift : Nat) : Nat :=
  if mask = 0 then decimalPrefix bytes.toList % 2 ^ 64
  else if shift < 64 then (bigEndian bytes.toList % 2 ^ 64 &&& mask.toNat) >>> shift
  else 0

namespace Machine

/-- Digits that are read into one machine word leave the number that they denote, modulo its size. -/
theorem foldl_ofDigits {base : Nat} {read : UInt64 → UInt8 → UInt64} {digit : UInt8 → Nat}
    (bytes : List UInt8)
    (reads : ∀ n, ∀ b ∈ bytes, (read n b).toNat = (n.toNat * base + digit b) % 2 ^ 64)
    (n : UInt64) :
    (bytes.foldl read n).toNat =
      (n.toNat * base ^ bytes.length + Nat.ofDigits base (bytes.map digit).reverse) % 2 ^ 64 := by
  induction bytes generalizing n with
  | nil =>
      rw [List.foldl_nil, List.length_nil, Nat.pow_zero, Nat.mul_one]
      exact (Nat.mod_eq_of_lt n.toNat_lt).symm
  | cons b rest ih =>
      have first := reads n b List.mem_cons_self
      have others := ih (fun n other member => reads n other (List.mem_cons_of_mem b member)) (read n b)
      have shifted : (n.toNat * base + digit b) * base ^ rest.length =
          n.toNat * base ^ (rest.length + 1) + base ^ rest.length * digit b := by
        rw [Nat.add_mul, Nat.mul_assoc, Nat.pow_succ', Nat.mul_comm (digit b)]
      rw [List.foldl_cons, others, first, List.map_cons, List.reverse_cons, Nat.ofDigits_append,
        List.length_reverse, List.length_map, Nat.ofDigits_singleton, List.length_cons,
        Nat.add_mod, Nat.mod_mul_mod, ← Nat.add_mod, shifted]
      congr 1
      omega

theorem digitCount_eq (bytes : List UInt8) :
    (digitCount bytes).toNat = decimalPrefix bytes % 2 ^ 64 := by
  have reads (n : UInt64) (b : UInt8) (member : b ∈ bytes.takeWhile isDecimal) :
      (n * 10 + (b - 0x30).toUInt64).toNat = (n.toNat * 10 + (b.toNat - 0x30)) % 2 ^ 64 := by
    have digit := List.mem_takeWhile_imp member
    unfold isDecimal at digit
    rw [Bool.and_eq_true, decide_eq_true_iff] at digit
    rw [UInt64.toNat_add, UInt64.toNat_mul, UInt8.toNat_toUInt64,
      UInt8.toNat_sub_of_le _ _ digit.1, Nat.mod_add_mod]
    rfl
  have read := foldl_ofDigits (bytes.takeWhile isDecimal) reads 0
  rw [UInt64.toNat_zero, Nat.zero_mul, Nat.zero_add] at read
  exact read

theorem wordOf_eq (bytes : List UInt8) : (wordOf bytes).toNat = bigEndian bytes % 2 ^ 64 := by
  have reads (n : UInt64) (b : UInt8) (_ : b ∈ bytes) :
      ((n <<< 8) ||| b.toUInt64).toNat = (n.toNat * 256 + b.toNat) % 2 ^ 64 := by
    have small : b.toNat < 2 ^ 8 := b.toNat_lt
    have moved : n.toNat * 256 % 2 ^ 64 = 2 ^ 8 * (n.toNat % 2 ^ 56) := by omega
    have eight : (8 : UInt64).toNat % 64 = 8 := rfl
    rw [UInt64.toNat_or, UInt64.toNat_shiftLeft, UInt8.toNat_toUInt64, eight, Nat.shiftLeft_eq,
      moved, ← Nat.two_pow_add_eq_or_of_lt small]
    omega
  have read := foldl_ofDigits bytes reads 0
  rw [UInt64.toNat_zero, Nat.zero_mul, Nat.zero_add] at read
  exact read

theorem countOf_eq (bytes : Bytes) (mask : UInt64) (shift : Nat) :
    (countOf bytes mask shift).toNat = repetitions bytes mask shift := by
  unfold countOf repetitions
  by_cases decimal : mask = 0
  · rw [if_pos decimal, if_pos decimal, digitCount_eq]
  · rw [if_neg decimal, if_neg decimal]
    by_cases within : shift < 64
    · have amount : (UInt64.ofNat shift).toNat % 64 = shift := by
        rw [UInt64.toNat_ofNat']
        omega
      rw [if_pos within, if_pos within, UInt64.toNat_shiftRight, UInt64.toNat_and, wordOf_eq, amount]
    · rw [if_neg within, if_neg within]
      rfl

/-! ### Trails -/

variable {σ τ : Type} {task : Task σ τ} {place target scan dec body exit : InstId}
  {m m₁ m₂ m' first : Machine σ τ} {trail passes : List (Config σ τ)} {frames : Array Frame}

/-- The states that a run goes through from one instruction to another one, the first of them first. -/
inductive Trail (task : Task σ τ) :
    InstId → Machine σ τ → List (Config σ τ) → InstId → Machine σ τ → Prop
  | refl (place : InstId) (m : Machine σ τ) : Trail task place m [] place m
  | head {place next target : InstId} {m m₁ m' : Machine σ τ} {trail : List (Config σ τ)}
      (first : m.step task place = .goto next m₁) (rest : Trail task next m₁ trail target m') :
      Trail task place m (⟨place, m⟩ :: trail) target m'

theorem Trail.trans {middle : InstId} {before after : List (Config σ τ)}
    (first : Trail task place m before middle m₁) (rest : Trail task middle m₁ after target m') :
    Trail task place m (before ++ after) target m' := by
  induction first with
  | refl => exact rest
  | head step _ ih => exact .head step (ih rest)

theorem Trail.execution {options : Options} {past : List (Config σ τ)}
    (runs : Trail task place m trail target m')
    (execution : Execution task options past ⟨place, m⟩) :
    Execution task options (trail.reverse ++ past) ⟨target, m'⟩ := by
  induction runs generalizing past with
  | refl => exact execution
  | head step _ ih =>
      rw [List.reverse_cons, List.append_assoc]
      exact ih (.step execution step)

/-! ### Passes -/

structure Enters (task : Task σ τ) (dec body : InstId) (m m' : Machine σ τ) : Prop where
  step : m.step task dec = .goto body m'
  level : m'.frames.size = m.frames.size

/-- One pass through the body. It comes back with the stack that it was entered with; where it comes by
the counting instruction in between, it is with a higher stack, at a repetition inside the body. -/
structure Pass (task : Task σ τ) (dec body : InstId) (m : Machine σ τ) (trail : List (Config σ τ))
    (m' : Machine σ τ) : Prop where
  runs : Trail task body m trail dec m'
  back : m'.frames = m.frames
  inside : ∀ config ∈ trail, config.place = dec → m.frames.size < config.machine.frames.size

/-- A number of passes one after the other, from the first time at the counting instruction on. -/
inductive Passes (task : Task σ τ) (dec body : InstId) (first : Machine σ τ) :
    Nat → List (Config σ τ) → Machine σ τ → Prop
  | none : Passes task dec body first 0 [] first
  | next {count : Nat} {passes pass : List (Config σ τ)} {m m₁ m₂ : Machine σ τ}
      (before : Passes task dec body first count passes m) (enters : Enters task dec body m m₁)
      (runs : Pass task dec body m₁ pass m₂) :
      Passes task dec body first (count + 1) (passes ++ ⟨dec, m⟩ :: pass) m₂

def Returns (task : Task σ τ) (dec body : InstId) (first : Machine σ τ) : Prop :=
  ∀ count passes m m₁, Passes task dec body first count passes m → Enters task dec body m m₁ →
    ∃ pass m₂, Pass task dec body m₁ pass m₂

def entersAt (task : Task σ τ) (dec body : InstId) (height : Nat) (config : Config σ τ) : Bool :=
  config.place == dec && config.machine.frames.size == height &&
    match config.machine.step task config.place with
    | .goto target m => target == body && m.frames.size == height
    | .halt _ _ => false

/-! ### Counting down -/

theorem step_dec (counts : task.program.inst? dec = some ⟨.count (.dec exit), body⟩)
    {left : UInt64} (top : m.frames = frames.push (.count left)) :
    m.step task dec =
      if left = 0 then .goto exit m.drop else .goto body (m.drop.push (.count (left - 1))) := by
  have back : m.frames.back? = some (.count left) := by rw [top, Array.back?_push]
  rw [step_eq counts]
  simp only [exec, countStep, back]
  split <;> rfl

theorem drop_pushed {frame : Frame} (top : m.frames = frames.push frame) :
    m.drop.frames = frames := by
  unfold Machine.drop
  rw [top, Array.pop_push]

theorem enters_dec (counts : task.program.inst? dec = some ⟨.count (.dec exit), body⟩)
    {left : UInt64} (top : m.frames = frames.push (.count left)) (more : left ≠ 0) :
    Enters task dec body m (m.drop.push (.count (left - 1))) := by
  have step := step_dec counts top
  rw [if_neg more] at step
  refine ⟨step, ?_⟩
  unfold Machine.push
  rw [drop_pushed top, top, Array.size_push, Array.size_push]

theorem Enters.counter (enters : Enters task dec body m m₁)
    (counts : task.program.inst? dec = some ⟨.count (.dec exit), body⟩)
    {left : UInt64} (top : m.frames = frames.push (.count left)) :
    left ≠ 0 ∧ m₁.frames = frames.push (.count (left - 1)) := by
  have step := step_dec counts top
  rw [enters.step] at step
  by_cases spent : left = 0
  · rw [if_pos spent] at step
    cases step
    have level := enters.level
    rw [drop_pushed top, top, Array.size_push] at level
    exact absurd level (Nat.ne_of_lt (Nat.lt_succ_self _))
  · rw [if_neg spent] at step
    cases step
    refine ⟨spent, ?_⟩
    unfold Machine.push
    rw [drop_pushed top]

theorem Enters.entersAt (enters : Enters task dec body m m₁) :
    entersAt task dec body m.frames.size ⟨dec, m⟩ = true := by
  unfold Machine.entersAt
  simp only [enters.step, enters.level, BEq.rfl, Bool.and_true]

theorem Pass.countP (runs : Pass task dec body m trail m') (inner : InstId) :
    trail.countP (entersAt task dec inner m.frames.size) = 0 := by
  rw [List.countP_eq_zero]
  intro config member enters
  unfold entersAt at enters
  rw [Bool.and_eq_true, Bool.and_eq_true, beq_iff_eq, beq_iff_eq] at enters
  exact absurd enters.1.2 (Nat.ne_of_gt (runs.inside config member enters.1.1))

theorem toNat_pred {left : UInt64} (more : left ≠ 0) : (left - 1).toNat + 1 = left.toNat := by
  have positive : 1 ≤ left.toNat :=
    Nat.one_le_iff_ne_zero.mpr fun zero => more (UInt64.toNat_inj.mp zero)
  have one : (1 : UInt64) ≤ left := UInt64.le_iff_toNat_le.mpr positive
  rw [UInt64.toNat_sub_of_le left 1 one]
  exact Nat.sub_add_cancel positive

/-- After some passes the counter is less by their number, and so often the body was entered. -/
theorem Passes.counter {count : Nat} (runs : Passes task dec body first count passes m)
    (counts : task.program.inst? dec = some ⟨.count (.dec exit), body⟩) {total : UInt64}
    (start : first.frames = frames.push (.count total)) :
    Trail task dec first passes dec m ∧
      passes.countP (entersAt task dec body (frames.size + 1)) = count ∧
      ∃ left : UInt64, left.toNat + count = total.toNat ∧ m.frames = frames.push (.count left) := by
  -- on the passes: what is left of the counter and the number of passes always add up to the start
  induction runs with
  | none => exact ⟨.refl dec first, rfl, total, rfl, start⟩
  | @next count passes pass m m₁ m₂ _ enters returns ih =>
      obtain ⟨trail, entered, left, remains, top⟩ := ih
      obtain ⟨more, inside⟩ := enters.counter counts top
      have height : m.frames.size = frames.size + 1 := by rw [top, Array.size_push]
      have counted := enters.entersAt
      have uncounted := returns.countP body
      rw [height] at counted
      rw [enters.level, height] at uncounted
      refine ⟨trail.trans (.head enters.step returns.runs), ?_, left - 1, ?_, ?_⟩
      · rw [List.countP_append, List.countP_cons, entered, uncounted, counted]
        rfl
      · have less := toNat_pred more
        omega
      · rw [returns.back, inside]

theorem Returns.many (returns : Returns task dec body first)
    (counts : task.program.inst? dec = some ⟨.count (.dec exit), body⟩) {total : UInt64}
    (start : first.frames = frames.push (.count total)) (count : Nat)
    (within : count ≤ total.toNat) :
    ∃ passes m, Passes task dec body first count passes m := by
  induction count with
  | zero => exact ⟨[], first, .none⟩
  | succ count ih =>
      obtain ⟨passes, m, runs⟩ := ih (Nat.le_of_succ_le within)
      obtain ⟨_, _, left, remains, top⟩ := runs.counter counts start
      -- the counter that the passes so far have left asks for one more
      have more : left ≠ 0 := by
        rintro rfl
        rw [UInt64.toNat_zero] at remains
        omega
      have enters := enters_dec counts top more
      obtain ⟨pass, m₂, once⟩ := returns count passes m _ runs enters
      exact ⟨_, m₂, .next runs enters once⟩

theorem Returns.runs_down (returns : Returns task dec body first)
    (counts : task.program.inst? dec = some ⟨.count (.dec exit), body⟩) {total : UInt64}
    (start : first.frames = frames.push (.count total)) :
    ∃ trail m', Trail task dec first trail exit m' ∧ m'.frames = frames ∧
      trail.countP (entersAt task dec body (frames.size + 1)) = total.toNat := by
  obtain ⟨passes, m, runs⟩ := returns.many counts start total.toNat (Nat.le_refl _)
  obtain ⟨trail, entered, left, remains, top⟩ := runs.counter counts start
  -- so many passes have used the counter up
  have spent : left = 0 := by
    apply UInt64.toNat_inj.mp
    rw [UInt64.toNat_zero]
    omega
  have step := step_dec counts top
  rw [if_pos spent] at step
  have left_over : m.drop.frames = frames := drop_pushed top
  refine ⟨passes ++ [⟨dec, m⟩], m.drop, trail.trans (.head step (.refl exit _)), left_over, ?_⟩
  have last : entersAt task dec body (frames.size + 1) ⟨dec, m⟩ = false := by
    unfold entersAt
    simp only [step, left_over, Nat.ne_of_lt (Nat.lt_succ_self frames.size), beq_eq_false_iff_ne.mpr,
      ne_eq, not_false_eq_true, Bool.and_false]
  rw [List.countP_append, entered, List.countP_singleton, last]
  rfl

/-! ### Counted repetition -/

theorem step_scan {start : Nat} {mask : UInt64} {shift : Nat} (chained : m.Chained)
    (scans : task.program.inst? scan = some ⟨.count (.scan mask shift), dec⟩)
    (entered : m.frames = frames.push (.position start)) :
    m.step task scan = .goto dec
      (m.drop.push (.count (countOf (task.input.slice start m.pos) mask shift))) := by
  have back : m.frames.back? = some (.position start) := by rw [entered, Array.back?_push]
  have pops : m.Pops (.position start) := ⟨back, .inl rfl⟩
  have under : SameStack (m.drop.push (.position start)) m := by
    refine ⟨?_, rfl⟩
    unfold Machine.push
    rw [drop_pushed entered, entered]
  have reads : Frame.position? (.position start) = some start := rfl
  have popped := popAs_pushed (chained.drop pops) under reads .position
  rw [step_eq scans]
  simp only [exec, countStep, popPosition, popped]
  rfl

/-- Counted repetition is exact, from any state with a true chain of choice points, as all are that a
machine goes through. The number is read from the captured bytes, modulo the size of a machine word; if
every pass through the body comes back with the stack that it was entered with, the run enters the body
so often and then comes to the exit with the stack below the captured position. A failure under a choice
point, inside the body or not, leads back to the whole stack that was there when the choice point was
pushed, with the counter that stood on it. -/
theorem counted_repetition_exact {start : Nat} {mask : UInt64} {shift : Nat} (chained : m.Chained)
    (scans : task.program.inst? scan = some ⟨.count (.scan mask shift), dec⟩)
    (counts : task.program.inst? dec = some ⟨.count (.dec exit), body⟩)
    (entered : m.frames = frames.push (.position start)) :
    ∃ first, m.step task scan = .goto dec first ∧
      (Returns task dec body first →
        ∃ trail m', Trail task scan m trail exit m' ∧ m'.frames = frames ∧
          trail.countP (entersAt task dec body (frames.size + 1)) =
            repetitions (task.input.slice start m.pos) mask shift) ∧
      ∀ options past trail place inst m₁ m₂ index, Execution task options past ⟨scan, m⟩ →
        Trail task scan m trail place m₁ → task.program.inst? place = some inst →
        m₁.exec task place inst = .fail m₂ → m₂.catchIndex = some index →
        ∃ point origin m', m₂.frames[index]? = some (.choice point) ∧
          PushedBy task.program Op.pushesChoice (trail.reverse ++ past) index origin ∧
          m₁.step task place = .goto point.failure m' ∧ m'.frames = origin.machine.frames := by
  have step := step_scan chained scans entered
  refine ⟨_, step, fun returns => ?_, ?_⟩
  · have start_frames : (m.drop.push
        (.count (countOf (task.input.slice start m.pos) mask shift))).frames =
        frames.push (.count (countOf (task.input.slice start m.pos) mask shift)) := by
      unfold Machine.push
      rw [drop_pushed entered]
    obtain ⟨trail, m', runs, stack, count⟩ := returns.runs_down counts start_frames
    have apart : (scan == dec) = false := by
      rw [beq_eq_false_iff_ne]
      rintro rfl
      rw [scans] at counts
      cases counts
    have outside : entersAt task dec body (frames.size + 1) ⟨scan, m⟩ = false := by
      unfold entersAt
      simp only [apart, Bool.false_and]
    refine ⟨⟨scan, m⟩ :: trail, m', .head step runs, stack, ?_⟩
    rw [List.countP_cons_of_neg (by rw [outside]; exact Bool.false_ne_true), count, countOf_eq]
  · intro options past trail place inst m₁ m₂ index execution runs found failed caught
    exact (runs.execution execution).failure_returns found failed caught

/-- Code that reads a digit and repeats a body that fails once under a choice point of its own. -/
def retriedBody : Program where
  insts := #[⟨.control (.exit false), .exitFail⟩, ⟨.control (.exit true), .exitOk⟩,
    ⟨.control .pos, ⟨3⟩⟩, ⟨.test (.byte 0x32) .once, ⟨4⟩⟩, ⟨.count (.scan 0 0), ⟨5⟩⟩,
    ⟨.count (.dec .exitOk), ⟨6⟩⟩, ⟨.control (.alt ⟨8⟩), ⟨7⟩⟩, ⟨.control .fail, .exitFail⟩,
    ⟨.control (.jump ⟨5⟩), .exitFail⟩]
  sets := .empty
  literals := .empty
  dispatch := #[]
  memoPoints := #[]
  symbols := .initial
  start := ⟨2⟩

theorem retriedBody_returns (task : Task σ τ) (program : task.program = retriedBody)
    (first : Machine σ τ) : Returns task ⟨5⟩ ⟨6⟩ first := by
  intro count passes m m₁ _ enters
  let point : ChoicePoint := ⟨⟨8⟩, m₁.pos, m₁.log.mark, m₁.bindings.save, m₁.catchIndex⟩
  let tried := m₁.pushChoice ⟨8⟩
  let returned := tried.resume m₁.frames.size point
  have found : tried.frames[m₁.frames.size]? = some (.choice point) := Array.getElem?_push_size
  have chooses : m₁.step task ⟨6⟩ = .goto ⟨7⟩ tried := by
    unfold Machine.step
    rw [program]
    rfl
  have fails : tried.step task ⟨7⟩ = .goto ⟨8⟩ returned := by
    have failed : tried.step task ⟨7⟩ = tried.fail ⟨7⟩ := by
      unfold Machine.step
      rw [program]
      rfl
    have caught : tried.catchIndex = some m₁.frames.size := rfl
    rw [failed]
    simp only [Machine.fail, caught, innermost_eq caught found]
    rfl
  have goes_on : returned.step task ⟨8⟩ = .goto ⟨5⟩ returned := by
    unfold Machine.step
    rw [program]
    rfl
  refine ⟨_, returned, .head chooses (.head fails (.head goes_on (.refl ⟨5⟩ returned))),
    shrink_push m₁.frames _, ?_⟩
  simp only [List.forall_mem_cons]
  have apart : (⟨6⟩ : InstId) ≠ ⟨5⟩ ∧ (⟨7⟩ : InstId) ≠ ⟨5⟩ ∧ (⟨8⟩ : InstId) ≠ ⟨5⟩ := by decide
  exact ⟨fun here => absurd here apart.1, fun here => absurd here apart.2.1,
    fun here => absurd here apart.2.2, fun config member => by cases member⟩

/-- The digit is two, so the body is entered twice; its first failure leads back to the stack with the
counter that it was entered with. -/
theorem counted_repetition_exact_retried :
    let task : Task Unit Tree := ⟨retriedBody, .ofBytes #[0x32], Tree.factory⟩
    ∃ past m, Execution task .initial past ⟨⟨4⟩, m⟩ ∧
      (∃ trail m', Trail task ⟨4⟩ m trail .exitOk m' ∧ m'.frames = #[.ret .exitOk] ∧
        trail.countP (entersAt task ⟨5⟩ ⟨6⟩ 2) = 2) ∧
      ∃ trail m₁ origin m', Trail task ⟨4⟩ m trail ⟨7⟩ m₁ ∧
        PushedBy retriedBody Op.pushesChoice (trail.reverse ++ past) 2 origin ∧
        m₁.step task ⟨7⟩ = .goto ⟨8⟩ m' ∧ m'.frames = origin.machine.frames := by
  intro task
  let m₀ : Machine Unit Tree := (initial retriedBody .initial ()).push (.ret .exitOk)
  let m₁ := m₀.push (.position 0)
  let m₂ := m₁.advance 1
  let m₃ := m₂.drop.push (.count 2)
  let m₄ := m₃.drop.push (.count 1)
  let m₅ := m₄.pushChoice ⟨8⟩
  have saved : Execution task .initial _ ⟨⟨3⟩, m₁⟩ := .step (.enter ⟨2⟩ ()) rfl
  have read : Execution task .initial _ ⟨⟨4⟩, m₂⟩ := .step saved rfl
  have two : countOf (task.input.slice 0 1) 0 0 = 2 := by decide
  have scanned : m₂.step task ⟨4⟩ = .goto ⟨5⟩ m₃ := by
    have step : m₂.step task ⟨4⟩ =
      .goto ⟨5⟩ (m₂.drop.push (.count (countOf (task.input.slice 0 1) 0 0))) := rfl
    rw [two] at step
    exact step
  have counted : m₃.step task ⟨5⟩ = .goto ⟨6⟩ m₄ := rfl
  have chosen : m₄.step task ⟨6⟩ = .goto ⟨7⟩ m₅ := rfl
  have scans : task.program.inst? ⟨4⟩ = some ⟨.count (.scan 0 0), ⟨5⟩⟩ := rfl
  have counts : task.program.inst? ⟨5⟩ = some ⟨.count (.dec .exitOk), ⟨6⟩⟩ := rfl
  have entered : m₂.frames = #[Frame.ret .exitOk].push (.position 0) := rfl
  obtain ⟨first, step, runs, failures⟩ :=
    counted_repetition_exact read.chained scans counts entered
  obtain ⟨trail, m', path, stack, entries⟩ := runs (retriedBody_returns task rfl first)
  have trail' : Trail task ⟨4⟩ m₂ _ ⟨7⟩ m₅ :=
    .head scanned (.head counted (.head chosen (.refl ⟨7⟩ m₅)))
  obtain ⟨point, origin, m'', choice, pushed, resumed, same⟩ :=
    failures .initial _ _ ⟨7⟩ _ m₅ m₅ 2 read trail' rfl rfl rfl
  cases choice
  exact ⟨_, m₂, read, ⟨trail, m', path, stack, entries⟩, _, m₅, origin, m'', trail', pushed, resumed,
    same⟩

end Machine

end Packrat
