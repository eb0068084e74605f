/-
Derivations and runs. A derivation is followed to its end by the machine; and a run that ends, taken
up before an expression, has followed one: within its fuel the run goes on through each part that the
expression has, so there is a derivation for each.
-/

import Packrat.Proofs.TreePeg.Sites

namespace Packrat.TreePeg.Setting

open Machine (Reaches steps)

variable {ρ τ : Type} {s : Setting ρ τ}

/-! ### Following a derivation -/

theorem follows_and_loops {e : Expr ρ} {pos : Nat} {result : Result τ}
    (yields : s.Yields e pos result) :
    s.Follows e pos result ∧ ∀ body, e = .star body → s.Loops body pos result := by
  -- the derivation of a repetition is followed from its own entry and from that of its body
  induction yields with
  | test found => exact ⟨follows_test found, fun _ same => by cases same⟩
  | testFail missing => exact ⟨follows_testFail missing, fun _ same => by cases same⟩
  | act logs => exact ⟨follows_act logs, fun _ same => by cases same⟩
  | seq _ _ first second => exact ⟨follows_seq first.1 second.1, fun _ same => by cases same⟩
  | seqFail _ ih => exact ⟨follows_seqFail ih.1, fun _ same => by cases same⟩
  | choiceFirst _ ih => exact ⟨follows_choiceFirst ih.1, fun _ same => by cases same⟩
  | choiceSecond _ _ first second =>
      exact ⟨follows_choiceSecond first.1 second.1, fun _ same => by cases same⟩
  | option _ ih => exact ⟨follows_option ih.1, fun _ same => by cases same⟩
  | optionNone _ ih => exact ⟨follows_optionNone ih.1, fun _ same => by cases same⟩
  | starFail _ ih =>
      have loops := loops_fail ih.1
      exact ⟨follows_star loops, fun _ same => by cases same; exact loops⟩
  | starIdle _ ih =>
      have loops := loops_idle ih.1
      exact ⟨follows_star loops, fun _ same => by cases same; exact loops⟩
  | starMore _ moves _ first second =>
      have loops := loops_more first.1 moves (second.2 _ rfl)
      exact ⟨follows_star loops, fun _ same => by cases same; exact loops⟩
  | absent _ ih => exact ⟨follows_absent ih.1, fun _ same => by cases same⟩
  | absentFail _ ih => exact ⟨follows_absentFail ih.1, fun _ same => by cases same⟩
  | call _ ih => exact ⟨follows_call ih.1, fun _ same => by cases same⟩
  | link succeeds ih => exact ⟨follows_link succeeds ih.1, fun _ same => by cases same⟩
  | linkFail fails ih => exact ⟨follows_link fails ih.1, fun _ same => by cases same⟩

theorem follows {e : Expr ρ} {pos : Nat} {result : Result τ} (yields : s.Yields e pos result) :
    s.Follows e pos result :=
  (follows_and_loops yields).1

/-! ### Runs that end -/

variable {fuel : Nat} {place k target : InstId} {m m' : Machine Unit τ} {e first second body : Expr ρ}

def Exits (s : Setting ρ τ) (fuel : Nat) (place : InstId) (m : Machine Unit τ) : Prop :=
  ∃ matched m', steps s.task fuel place m = some (.exit matched, m')

theorem Exits.mono {more : Nat} (exits : s.Exits fuel place m) (within : fuel ≤ more) :
    s.Exits more place m := by
  obtain ⟨matched, m', halts⟩ := exits
  have longer := Machine.steps_mono halts (more - fuel)
  rw [Nat.add_sub_cancel' within] at longer
  exact ⟨matched, m', longer⟩

theorem Exits.rest (exits : s.Exits fuel place m) (path : Reaches s.task place m target m') :
    s.Exits fuel target m' := by
  obtain ⟨matched, last, halts⟩ := exits
  obtain ⟨left, within, halts'⟩ := path.steps_rest halts
  exact Exits.mono ⟨matched, last, halts'⟩ within

/-- A path that changes the state takes a step. -/
theorem Exits.later (exits : s.Exits (fuel + 1) place m)
    (path : Reaches s.task place m target m') (moves : m' ≠ m) : s.Exits fuel target m' := by
  cases path with
  | refl => exact absurd rfl moves
  | head step path =>
      obtain ⟨matched, last, halts⟩ := exits
      rw [steps, step] at halts
      exact Exits.rest ⟨matched, last, halts⟩ path

theorem not_exits_zero : ¬s.Exits 0 place m := by
  rintro ⟨matched, m', halts⟩
  cases halts

theorem Exits.sound {op : Op InstId} {next : InstId} (exits : s.Exits fuel place m)
    (meets : Meets s.task.program place op next) :
    ¬∀ place next, ∃ fault, m.exec s.task place ⟨op, next⟩ = .halt (.fault fault) m := by
  intro faults
  obtain ⟨last, after, leads, found, _⟩ := meets
  obtain ⟨matched, m', halts⟩ := exits.rest (Machine.reaches_of_leads leads m)
  obtain ⟨fault, stuck⟩ := faults last after
  cases fuel with
  | zero => cases halts
  | succ fuel =>
      rw [steps, Machine.step_eq found, stuck] at halts
      cases halts

theorem push_ne (m : Machine Unit τ) (frame : Frame) : m.push frame ≠ m := by
  intro same
  have sizes := congrArg (fun m => m.frames.size) same
  simp only [Machine.push, Array.size_push] at sizes
  omega

/-! ### Finding a derivation -/

/-- Before the code of an expression, a run that ends within the fuel has a derivation to follow. -/
def Answers (s : Setting ρ τ) (fuel : Nat) (e : Expr ρ) : Prop :=
  ∀ place k (m : Machine Unit τ), TreeCode s.task.program s.layout e place k → s.Sound place m →
    s.Exits fuel place m → ∃ result, s.Yields e m.pos result

theorem answers_act {action : Action} : s.Answers fuel (.act action) := by
  intro place k m code sound exits
  obtain ⟨op, stands, meets⟩ := code
  cases logs : action.intents? (τ := τ) m.pos with
  | some intents => exact ⟨_, .act logs⟩
  | none => exact absurd (fun place next => exec_action_fault stands logs place next) (exits.sound meets)

theorem answers_seq (ih : s.Answers fuel first) (ih' : s.Answers fuel second) :
    s.Answers fuel (.seq first second) := by
  intro place k m code sound exits
  obtain ⟨between, code, code'⟩ := code
  obtain ⟨result, yields⟩ := ih place between m code sound exits
  cases result with
  | none => exact ⟨_, .seqFail yields⟩
  | some success =>
      obtain ⟨m₁, path, arrives⟩ := follows yields place between m code rfl sound
      obtain ⟨result', yields'⟩ := ih' between k m₁ code' (sound.arrive path arrives)
        (exits.rest path)
      rw [arrives.pos] at yields'
      exact ⟨_, .seq yields yields'⟩

theorem Answers.under {failure done : InstId} (ih : s.Answers fuel body)
    (code : TreeCode s.task.program s.layout body k done) (sound : s.Sound place m)
    (alt : Meets s.task.program place (.control (.alt failure)) k) (exits : s.Exits fuel place m) :
    ∃ result, s.Yields body m.pos result :=
  ih k done (m.pushChoice failure) code (sound.alt alt) (exits.rest (Machine.reaches_alt alt m))

theorem answers_choice (ih : s.Answers fuel first) (ih' : s.Answers fuel second) :
    s.Answers fuel (.choice first second) := by
  intro place k m code sound exits
  obtain ⟨other, entry, done, alt, code, _, code'⟩ := code
  obtain ⟨result, yields⟩ := ih.under code sound alt exits
  cases result with
  | some success => exact ⟨_, .choiceFirst yields⟩
  | none =>
      obtain ⟨m₁, path, arrives⟩ := (follows yields).falls code rfl (sound.alt alt)
      have onward := (Machine.reaches_alt alt m).trans path
      obtain ⟨result', yields'⟩ := ih' other k m₁ code' (sound.arrive onward arrives)
        (exits.rest onward)
      rw [arrives.pos] at yields'
      exact ⟨_, .choiceSecond yields yields'⟩

theorem answers_option (ih : s.Answers fuel body) : s.Answers fuel (.option body) := by
  intro place k m code sound exits
  obtain ⟨none, entry, done, alt, code, _⟩ := code
  obtain ⟨result, yields⟩ := ih.under code sound alt exits
  cases result with
  | some success => exact ⟨_, .option yields⟩
  | none => exact ⟨_, .optionNone yields⟩

theorem answers_absent (ih : s.Answers fuel body) : s.Answers fuel (.absent body) := by
  intro place k m code sound exits
  obtain ⟨absent, entry, done, stuck, next, alt, code, _⟩ := code
  obtain ⟨result, yields⟩ := ih.under code sound alt exits
  cases result with
  | some success => exact ⟨_, .absentFail yields⟩
  | none => exact ⟨_, .absent yields⟩

/-- The iterations of a repetition, from the entry of the body on: each takes a step at least. -/
theorem answers_loop (ih : s.Answers fuel body) {top again stop : InstId}
    (code : TreeCode s.task.program s.layout body top again)
    (repeats : Meets s.task.program again (.control .step) top) {left : Nat} (within : left ≤ fuel)
    (chained : m.Chained) (sound : s.Sound top (m.pushChoice stop))
    (exits : s.Exits left top (m.pushChoice stop)) : ∃ result, s.Yields (.star body) m.pos result := by
  induction left generalizing m with
  | zero => exact absurd exits not_exits_zero
  | succ left more =>
      obtain ⟨result, yields⟩ := ih top again (m.pushChoice stop) code sound (exits.mono within)
      cases result with
      | none => exact ⟨_, .starFail yields⟩
      | some success =>
          obtain ⟨middle, logged⟩ := success
          by_cases idle : middle = m.pos
          · subst idle
            exact ⟨_, .starIdle yields⟩
          · obtain ⟨m₁, path, arrives⟩ := (follows yields).under (m := m) code rfl sound
            have moved : m₁.pos ≠ m.pos := by
              rw [arrives.pos]
              exact idle
            have repeated := Machine.reaches_step repeats arrives.same moved
            have chained' : (m₁.withStack m).Chained := chained.same ⟨rfl, rfl⟩
            have renewed : s.Sound top ((m₁.withStack m).pushChoice stop) :=
              (sound.arrive path arrives).move repeated (chained'.pushChoice stop) rfl rfl
            have fresh : (m₁.withStack m).pushChoice stop ≠ m.pushChoice stop := by
              intro same
              have positions := congrArg Machine.pos same
              exact moved positions
            obtain ⟨result, yields'⟩ := more (Nat.le_of_succ_le within) chained' renewed
              (exits.later (path.trans repeated) fresh)
            change s.Yields (.star body) m₁.pos result at yields'
            rw [arrives.pos] at yields'
            exact ⟨_, .starMore yields idle yields'⟩

theorem answers_star (ih : s.Answers fuel body) : s.Answers fuel (.star body) := by
  intro place k m code sound exits
  obtain ⟨stop, top, again, alt, code, repeats, _⟩ := code
  exact answers_loop ih code repeats (Nat.le_refl fuel) sound.chained (sound.alt alt)
    (exits.rest (Machine.reaches_alt alt m))

/-- A call takes a step, so there is less fuel for the body of the rule. -/
theorem answers_call {rule : ρ} (ih : s.Answers fuel (s.rules rule)) :
    s.Answers (fuel + 1) (.call rule) := by
  intro place k m code sound exits
  obtain ⟨target, back, name, next, call, enters, _⟩ := code
  obtain ⟨done, after, body, _⟩ := s.laid rule
  let entered := m.push (.ret back)
  have calls : Reaches s.task place m target entered :=
    Machine.reaches_target call fun _ _ => rfl
  have enter := calls.trans (Machine.reaches_of_leads enters entered)
  have inside : s.Sound (s.layout.entry rule) entered :=
    sound.move enter (sound.chained.push rfl) rfl rfl
  obtain ⟨result, yields⟩ := ih (s.layout.entry rule) done entered body inside
    (exits.later enter (push_ne m _))
  exact ⟨result, .call yields⟩

theorem answers_built (ih : s.Answers fuel body) {entry emit : InstId}
    (begins : Meets s.task.program place (.tree .checkpoint) entry)
    (code : TreeCode s.task.program s.layout body entry emit) (sound : s.Sound place m)
    (exits : s.Exits fuel place m) : ∃ result, s.Yields body m.pos result := by
  let saved := m.push (.tree m.log.mark)
  have save : Reaches s.task place m entry saved := Machine.reaches_next begins fun _ _ => rfl
  have inside : s.Sound entry saved := sound.move save (sound.chained.push rfl) rfl rfl
  exact ih entry emit saved code inside (exits.rest save)

theorem answers_site {rule : ρ} {label : Symbol} (ih : s.Answers fuel (.call rule))
    (code : SiteCode s.task.program s.layout label rule place k) (sound : s.Sound place m)
    (exits : s.Exits fuel place m) : ∃ result, s.Yields (.call rule) m.pos result := by
  obtain ⟨point, info, skip, attempt, failed, start, call, emit, store, next, memoized, resolved,
    stateless, meets, leads, alt, begins, calls, _⟩ := code
  cases known : (m.memo.find m.pos point none).1 with
  | some entry =>
      have knows := sound.faithful.knows m.pos point rule entry memoized known
      unfold Setting.Knows at knows
      cases failed : entry.failed with
      | true =>
          rw [failed] at knows
          exact ⟨_, .call knows⟩
      | false =>
          rw [failed] at knows
          obtain ⟨logged, yields, _⟩ := knows
          exact ⟨_, .call yields⟩
  | none =>
      have ⟨entered, at_start⟩ := enters_site resolved stateless meets alt known sound
      let tried := (Peg.missed m point).pushChoice failed
      exact answers_built (m := tried) ih begins calls at_start (exits.rest entered)

theorem answers_link {label : Symbol} (ih : s.Answers fuel body) :
    s.Answers fuel (.link label body) := by
  intro place k m code sound exits
  have inside : ∃ result, s.Yields body m.pos result := by
    rcases code with ⟨entry, emit, begins, code, _⟩ | ⟨rule, rfl, site⟩
    · exact answers_built ih begins code sound exits
    · exact answers_site ih site sound exits
  obtain ⟨result, yields⟩ := inside
  cases result with
  | some success => exact ⟨_, .link yields⟩
  | none => exact ⟨_, .linkFail yields⟩

theorem answers (fuel : Nat) (e : Expr ρ) : s.Answers fuel e := by
  -- on the fuel for what the rules call, and on the expression for its parts
  induction fuel generalizing e with
  | zero => exact fun place k m _ _ exits => absurd exits not_exits_zero
  | succ fuel less =>
      induction e with
      | test pattern policy =>
          intro place k m _ _ _
          cases found : policy.stop? s.task.input pattern m.pos with
          | some stop => exact ⟨_, .test found⟩
          | none => exact ⟨_, .testFail found⟩
      | act action => exact answers_act
      | seq first second ih ih' => exact answers_seq ih ih'
      | choice first second ih ih' => exact answers_choice ih ih'
      | option body ih => exact answers_option ih
      | star body ih => exact answers_star ih
      | absent body ih => exact answers_absent ih
      | call rule => exact answers_call (less (s.rules rule))
      | link label body ih => exact answers_link ih

end Packrat.TreePeg.Setting
