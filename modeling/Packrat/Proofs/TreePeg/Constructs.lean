/-
The constructs of expressions that build trees, each followed by the machine where its parts are. An
emit is the only place at which a vacant link could be seen.
-/

import Packrat.Proofs.TreePeg.Simulation

namespace Packrat.TreePeg

open Machine (Reaches SameStack)

theorem solid_action {τ : Type} {action : Action} {pos : Nat} {intents : List (Intent τ)}
    (logs : action.intents? pos = some intents) : ∀ intent ∈ intents, intent.isVacant = false := by
  cases action with
  | tag | replace =>
      cases logs
      intro intent member
      cases List.mem_singleton.mp member
      rfl
  | node | fold =>
      obtain ⟨place, _, rfl⟩ := Option.map_eq_some_iff.mp logs
      intro intent member
      cases List.mem_singleton.mp member
      rfl
  | close shift name value =>
      obtain ⟨place, _, rfl⟩ := Option.map_eq_some_iff.mp logs
      intro intent member
      rcases List.mem_append.mp member with first | last
      · rcases List.mem_cons.mp first with rfl | tagged
        · rfl
        · split at tagged
          · cases tagged
          · cases List.mem_singleton.mp tagged
            rfl
      · obtain ⟨bytes, _, rfl⟩ := List.mem_map.mp (by rwa [Option.toList_map] at last)
        rfl

namespace Setting

variable {ρ τ : Type} {s : Setting ρ τ} {place k failure : InstId} {m m₁ m' : Machine Unit τ}
  {pos middle stop : Nat} {logged : List (Intent τ)} {result : Result τ} {first second body : Expr ρ}

theorem Sound.alt (sound : s.Sound place m)
    (meets : Meets s.task.program place (.control (.alt failure)) k) :
    s.Sound k (m.pushChoice failure) :=
  sound.move (Machine.reaches_alt meets m) (sound.chained.pushChoice failure) rfl rfl

theorem Follows.under (follows : s.Follows body pos (some (stop, logged))) {done : InstId}
    (code : TreeCode s.task.program s.layout body place done) (at_pos : m.pos = pos)
    (sound : s.Sound place (m.pushChoice failure)) :
    ∃ m₁, Reaches s.task place (m.pushChoice failure) done m₁ ∧
      s.Arrives (m.pushChoice failure) stop logged m₁ :=
  follows place done (m.pushChoice failure) code at_pos sound

theorem Follows.falls (follows : s.Follows body pos none) {done : InstId}
    (code : TreeCode s.task.program s.layout body place done) (at_pos : m.pos = pos)
    (sound : s.Sound place (m.pushChoice failure)) :
    ∃ m', Reaches s.task place (m.pushChoice failure) failure m' ∧ s.Arrives m pos [] m' := by
  obtain ⟨target, m', path, falls⟩ :=
    follows place done (m.pushChoice failure) code at_pos sound
  obtain ⟨rfl, arrives⟩ := falls.resumed
  rw [at_pos] at arrives
  exact ⟨m', path, arrives⟩

theorem follows_test {pattern : Pattern ByteSet Bytes} {policy : Policy}
    (found : policy.stop? s.task.input pattern pos = some stop) :
    s.Follows (.test pattern policy) pos (some (stop, [])) := by
  intro place k m code at_pos sound
  obtain ⟨operand, resolved, meets⟩ := code
  subst at_pos
  have path := Machine.reaches_next meets fun place next =>
    exec_test resolved found place next
  exact ⟨{ m with pos := stop }, path, rfl, ⟨rfl, rfl⟩, ⟨[], .refl m.log, reads_nil⟩,
    sound.faithful.keep rfl⟩

theorem follows_testFail {pattern : Pattern ByteSet Bytes} {policy : Policy}
    (missing : policy.stop? s.task.input pattern pos = none) :
    s.Follows (.test pattern policy) pos none := by
  intro place k m code at_pos sound
  obtain ⟨operand, resolved, meets⟩ := code
  subst at_pos
  have fails (place next : InstId) := exec_test_fails resolved missing place next
  exact (Arrives.refl sound.faithful).fails meets fails sound.chained ⟨rfl, rfl⟩ rfl sound.faithful

theorem follows_act {action : Action} {intents : List (Intent τ)}
    (logs : action.intents? pos = some intents) :
    s.Follows (.act action) pos (some (pos, if s.building then intents else [])) := by
  intro place k m code at_pos sound
  obtain ⟨op, stands, meets⟩ := code
  subst at_pos
  have path := Machine.reaches_next meets fun place next =>
    exec_action stands logs place next
  have grows := extends_logAll m.log intents
  rw [sound.enabled] at grows
  have full : ∀ intent ∈ (if s.building then intents else []), intent.isVacant = false := by
    intro intent member
    split at member
    · exact solid_action logs intent member
    · cases member
  exact ⟨_, path, rfl, ⟨rfl, rfl⟩, ⟨_, grows, reads_full full⟩, sound.faithful.keep rfl⟩

theorem follows_seq (ih : s.Follows first pos (some (middle, logged)))
    (ih' : s.Follows second middle result) :
    s.Follows (.seq first second) pos (result.behind logged) := by
  intro place k m code at_pos sound
  obtain ⟨between, code, code'⟩ := code
  obtain ⟨m₁, path, arrives⟩ := ih place between m code at_pos sound
  refine Performs.before path (Performs.after arrives ?_)
  exact ih' between k m₁ code' arrives.pos (sound.arrive path arrives)

theorem follows_seqFail (ih : s.Follows first pos none) :
    s.Follows (.seq first second) pos none := by
  intro place k m code at_pos sound
  obtain ⟨between, code, _⟩ := code
  exact ih place between m code at_pos sound

theorem follows_choiceFirst (ih : s.Follows first pos (some (stop, logged))) :
    s.Follows (.choice first second) pos (some (stop, logged)) := by
  intro place k m code at_pos sound
  obtain ⟨other, entry, done, alt, code, succ, _⟩ := code
  obtain ⟨m₁, path, arrives⟩ := ih.under code at_pos (sound.alt alt)
  have left := Machine.reaches_succ succ arrives.same
  exact ⟨m₁.withStack m, (Machine.reaches_alt alt m).trans (path.trans left), arrives.leave rfl⟩

theorem follows_choiceSecond (ih : s.Follows first pos none) (ih' : s.Follows second pos result) :
    s.Follows (.choice first second) pos result := by
  intro place k m code at_pos sound
  obtain ⟨other, entry, done, alt, code, _, code'⟩ := code
  obtain ⟨m₁, path, arrives⟩ := ih.falls code at_pos (sound.alt alt)
  have onward := (Machine.reaches_alt alt m).trans path
  have rest := ih' other k m₁ code' arrives.pos (sound.arrive onward arrives)
  have performs := Performs.before onward (Performs.after arrives rest)
  rw [behind_nil] at performs
  exact performs

theorem follows_option (ih : s.Follows body pos (some (stop, logged))) :
    s.Follows (.option body) pos (some (stop, logged)) := by
  intro place k m code at_pos sound
  obtain ⟨none, entry, done, alt, code, succ, _⟩ := code
  obtain ⟨m₁, path, arrives⟩ := ih.under code at_pos (sound.alt alt)
  have left := Machine.reaches_succ succ arrives.same
  exact ⟨m₁.withStack m, (Machine.reaches_alt alt m).trans (path.trans left), arrives.leave rfl⟩

theorem follows_optionNone (ih : s.Follows body pos none) :
    s.Follows (.option body) pos (some (pos, [])) := by
  intro place k m code at_pos sound
  obtain ⟨none, entry, done, alt, code, _, leads⟩ := code
  obtain ⟨m₁, path, arrives⟩ := ih.falls code at_pos (sound.alt alt)
  have onward := path.trans (Machine.reaches_of_leads leads m₁)
  exact ⟨m₁, (Machine.reaches_alt alt m).trans onward, arrives⟩

theorem follows_absent (ih : s.Follows body pos none) :
    s.Follows (.absent body) pos (some (pos, [])) := by
  intro place k m code at_pos sound
  obtain ⟨absent, entry, done, stuck, next, alt, code, _, _, leads⟩ := code
  obtain ⟨m₁, path, arrives⟩ := ih.falls code at_pos (sound.alt alt)
  have onward := path.trans (Machine.reaches_of_leads leads m₁)
  exact ⟨m₁, (Machine.reaches_alt alt m).trans onward, arrives⟩

theorem follows_absentFail (ih : s.Follows body pos (some (stop, logged))) :
    s.Follows (.absent body) pos none := by
  intro place k m code at_pos sound
  obtain ⟨absent, entry, done, stuck, next, alt, code, succ, fail, _⟩ := code
  obtain ⟨m₁, path, arrives⟩ := ih.under code at_pos (sound.alt alt)
  have left := Machine.reaches_succ succ arrives.same
  have behind : s.Arrives m stop logged (m₁.withStack m) := arrives.leave rfl
  refine Performs.before ((Machine.reaches_alt alt m).trans (path.trans left)) ?_
  exact behind.fails fail (fun _ _ => rfl) sound.chained ⟨rfl, rfl⟩ rfl behind.faithful

theorem follows_call {rule : ρ} (ih : s.Follows (s.rules rule) pos result) :
    s.Follows (.call rule) pos result := by
  intro place k m code at_pos sound
  obtain ⟨target, back, name, next, call, enters, returns⟩ := code
  obtain ⟨done, after, body, ret⟩ := s.laid rule
  let entered := m.push (.ret back)
  have calls : Reaches s.task place m target entered :=
    Machine.reaches_target call fun _ _ => rfl
  have enter := calls.trans (Machine.reaches_of_leads enters entered)
  have inside : s.Sound (s.layout.entry rule) entered :=
    sound.move enter (sound.chained.push rfl) rfl rfl
  have performs := ih (s.layout.entry rule) done entered body at_pos inside
  refine Performs.before enter ?_
  cases result with
  | some success =>
      obtain ⟨m₁, path, arrives⟩ := performs
      have left := Machine.reaches_ret sound.chained ret arrives.same
      have onward := left.trans (Machine.reaches_of_leads returns _)
      exact ⟨m₁.withStack m, path.trans onward, arrives.leave rfl⟩
  | none =>
      obtain ⟨target', m', path, falls⟩ := performs
      exact ⟨target', m', path, falls.pop sound.chained⟩

/-! ### Repetitions -/

theorem follows_star (loops : s.Loops body pos result) : s.Follows (.star body) pos result := by
  intro place k m code at_pos sound
  obtain ⟨stop, top, again, alt, code, step, leads⟩ := code
  exact Performs.before (Machine.reaches_alt alt m)
    (loops top again stop k m code step leads at_pos sound.chained (sound.alt alt))

theorem loops_fail (ih : s.Follows body pos none) : s.Loops body pos (some (pos, [])) := by
  intro top again stop k m code _ leads at_pos _ sound
  obtain ⟨m₁, path, arrives⟩ := ih.falls code at_pos sound
  exact ⟨m₁, path.trans (Machine.reaches_of_leads leads m₁), arrives⟩

theorem loops_idle (ih : s.Follows body pos (some (pos, logged))) :
    s.Loops body pos (some (pos, [])) := by
  intro top again stop k m code step leads at_pos _ sound
  obtain ⟨m₁, path, arrives⟩ := ih.under code at_pos sound
  have idle : m₁.pos = m.pos := arrives.pos.trans at_pos.symm
  obtain ⟨target, m', path', falls⟩ :=
    arrives.fails (k := again) step (Machine.step_fails arrives.same idle) sound.chained ⟨rfl, rfl⟩
      rfl arrives.faithful
  obtain ⟨rfl, resumed⟩ := falls.resumed
  rw [at_pos] at resumed
  exact ⟨m', path.trans (path'.trans (Machine.reaches_of_leads leads m')), resumed⟩

/-- A moving iteration leaves the choice point as if the repetition began anew. -/
theorem loops_more (ih : s.Follows body pos (some (middle, logged))) (moves : middle ≠ pos)
    (ih' : s.Loops body middle result) : s.Loops body pos (result.behind logged) := by
  intro top again stop k m code step leads at_pos chained sound
  obtain ⟨m₁, path, arrives⟩ := ih.under code at_pos sound
  have moved : m₁.pos ≠ m.pos := by
    rw [arrives.pos, at_pos]
    exact moves
  have repeated := Machine.reaches_step step arrives.same moved
  have behind : s.Arrives m middle logged (m₁.withStack m) := arrives.leave rfl
  have chained' : (m₁.withStack m).Chained := chained.same ⟨rfl, rfl⟩
  have renewed : s.Sound top ((m₁.withStack m).pushChoice stop) :=
    (sound.arrive path arrives).move repeated (chained'.pushChoice stop) rfl rfl
  refine Performs.before (path.trans repeated) (Performs.after behind ?_)
  exact ih' top again stop k (m₁.withStack m) code step leads arrives.pos chained' renewed

end Setting

end Packrat.TreePeg
