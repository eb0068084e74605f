/-
Whole runs of code that builds trees. If a run without memoization ends, then so does every other one,
with the same verdict and at the same position. The tree is the same where no vacant link is logged,
and more generally where none changes a node; else it may differ.
-/

import Packrat.Proofs.Peg.Transparency
import Packrat.Proofs.TreePeg.Halting

namespace Packrat.TreePeg

open Machine (Reaches steps)
open Peg (Layout Ends entering)

variable {ρ σ τ : Type} {task : Task Unit τ} {rules : ρ → Expr ρ} {layout : Layout ρ}
  {make : Node τ → τ} {e : Expr ρ} {place done : InstId}

def running (factory : task.factory = .ofFunction make)
    (laid : RuleCode task.program layout rules) (options : Options) : Setting ρ τ where
  task := task
  rules := rules
  layout := layout
  make := make
  building := options.tree
  place := task.program.start
  start := entering task.program options ()
  factory := factory
  laid := laid

section

variable (factory : task.factory = .ofFunction make)
  (laid : RuleCode task.program layout rules) (options : Options)

theorem sound_start :
    (running factory laid options).Sound task.program.start
      (entering task.program options ()) := by
  have chained : (Machine.initial task.program options () : Machine Unit τ).Chained :=
    Peg.chained_initial _ _ _
  refine ⟨.refl _ _, chained.push rfl, ⟨[], [], TreeLog.layout_new options.tree⟩, rfl, ?_⟩
  refine ⟨fun bare => bare, fun pos point rule entry _ found => ?_⟩
  have nothing := MemoTable.find_ofOptions (τ := τ) options task.program.memoPoints.size pos point
    none
  change ((MemoTable.ofOptions options task.program.memoPoints.size).find pos point none).1 =
    some entry at found
  rw [nothing] at found
  cases found

end

/-- A derivation of the expression that a program starts with is followed to an exit. -/
theorem halts_of_derives (factory : task.factory = .ofFunction make)
    (laid : RuleCode task.program layout rules) (options : Options)
    (finished : task.program.Finished) (leads : Leads task.program task.program.start place)
    (code : TreeCode task.program layout e place done) (ends : Ends task.program done)
    {result : Result τ} (derives : Derives task.input make options.tree rules e 0 result) :
    ∃ fuel m, steps task fuel task.program.start (entering task.program options ()) =
        some (.exit result.isSome, m) ∧
      ∀ stop logged, result = some (stop, logged) →
        m.pos = stop ∧ (running factory laid options).Reads m.log.intents logged := by
  let s := running factory laid options
  let m : Machine Unit τ := entering task.program options ()
  have enter : Reaches s.task s.place m place m := Machine.reaches_of_leads leads m
  have sound : s.Sound place m :=
    (sound_start factory laid options).move enter (sound_start factory laid options).chained rfl rfl
  have yields : s.Yields e 0 result := derives
  have performs := Setting.follows yields place done m code rfl sound
  obtain ⟨⟨failNext, fail⟩, okNext, ok⟩ := finished.exits
  cases result with
  | some success =>
      obtain ⟨stop, logged⟩ := success
      obtain ⟨m', path, arrives⟩ := performs
      obtain ⟨added, grows, reads⟩ := arrives.logs
      obtain ⟨more, free, layout, content⟩ := grows.2 [] [] (TreeLog.layout_new options.tree)
      have at_stop (m₁ : Machine Unit τ) (pos : m₁.pos = m'.pos) (log : m₁.log = m'.log) :
          ∀ stop' logged', some (stop, logged) = some (stop', logged') →
            m₁.pos = stop' ∧ s.Reads m₁.log.intents logged' := by
        intro stop' logged' same
        cases same
        refine ⟨pos.trans arrives.pos, ?_⟩
        rw [log, layout.intents_eq, List.nil_append, content]
        exact reads
      have onward := enter.trans path
      obtain ⟨next, ret | exit⟩ := ends
      · have returned := Machine.reaches_ret (Peg.chained_initial _ options ()) ret arrives.same
        obtain ⟨fuel, halts⟩ :=
          Peg.halts_at_exit (onward.trans returned) ⟨_, _, .here _, ok, .here _⟩
        exact ⟨fuel, _, halts, at_stop _ rfl rfl⟩
      · obtain ⟨fuel, halts⟩ := Peg.halts_at_exit onward exit
        exact ⟨fuel, m', halts, at_stop m' rfl rfl⟩
  | none =>
      obtain ⟨target, m', path, failing, added, same, _, unwinds, _⟩ := performs
      have ground : failing.catchIndex = none := same.catchIndex
      unfold Machine.Unwinds at unwinds
      rw [ground] at unwinds
      obtain ⟨rfl, _⟩ := unwinds
      obtain ⟨fuel, halts⟩ := Peg.halts_at_exit (enter.trans path) ⟨_, _, .here _, fail, .here _⟩
      exact ⟨fuel, m', halts, fun stop logged same => by cases same⟩

theorem derives_of_halts (factory : task.factory = .ofFunction make)
    (laid : RuleCode task.program layout rules) (options : Options)
    (leads : Leads task.program task.program.start place)
    (code : TreeCode task.program layout e place done) {fuel : Nat} {matched : Bool}
    {m : Machine Unit τ}
    (halts : steps task fuel task.program.start (entering task.program options ()) =
      some (.exit matched, m)) :
    ∃ result, Derives task.input make options.tree rules e 0 result := by
  let s := running factory laid options
  let first : Machine Unit τ := entering task.program options ()
  have enter : Reaches s.task s.place first place first := Machine.reaches_of_leads leads first
  have started := sound_start factory laid options
  have exits : s.Exits fuel s.place first := ⟨matched, m, halts⟩
  exact Setting.answers fuel e place done first code (started.move enter started.chained rfl rfl)
    (exits.rest enter)

/-- The tree of a run, read from what the derivation logs. -/
theorem result_reads {s : Setting ρ τ} {added logged : List (Intent τ)}
    (reads : s.Reads added logged) (told : s.Exact ∨ s.Alike) (flat : Intent.Flat logged)
    (factory : TreeFactory Unit τ) (stop : Nat) :
    Intent.result factory 0 stop added () = Intent.result factory 0 stop logged () := by
  rcases told with exact | alike
  · rw [reads.exact exact]
  · have solid := reads.alike alike
    subst solid
    exact (Intent.result_solid factory (Intent.flat_of_solid flat) 0 stop ()).symm

/-- Memoization is transparent for trees up to vacant links. If the run without memoization has an
outcome, the run under any options has one too, with the same verdict and the same end of the match;
and with the same tree if each match of a memoized rule logs something, or if no emit of the run reads
a vacant link that changes its node. -/
theorem trees_transparent_up_to_vacant (factory : task.factory = .ofFunction make)
    (finished : task.program.Finished) (laid : RuleCode task.program layout rules)
    (leads : Leads task.program task.program.start place)
    (code : TreeCode task.program layout e place done) (ends : Ends task.program done)
    {options : Options} {fuel : Nat} {plain : Outcome τ} {left : Unit}
    (halts : execute task fuel task.program.start { options with memo := .disabled } () =
      some (.outcome plain left)) :
    ∃ fuel' outcome left',
      execute task fuel' task.program.start options () = some (.outcome outcome left') ∧
      outcome.matched = plain.matched ∧
      (outcome.matched = true → outcome.position = plain.position) ∧
      (MatchesBuild task.input make rules layout ∨
          (∀ place m, Reaches task task.program.start (entering task.program options ()) place m →
            BuildsAlike task place m) →
        outcome.tree = plain.tree) := by
  let bare : Options := { options with memo := .disabled }
  obtain ⟨matched, m, ended⟩ := Peg.steps_of_execute halts
  obtain ⟨result, derives⟩ := derives_of_halts factory laid bare leads code ended
  obtain ⟨fuel₁, m₁, ended₁, found₁⟩ :=
    halts_of_derives factory laid options finished leads code ends derives
  obtain ⟨fuel₂, m₂, ended₂, found₂⟩ :=
    halts_of_derives factory laid bare finished leads code ends derives
  cases Machine.steps_unique ended ended₂
  obtain ⟨outcome, left₁, answers₁, matched₁, position₁, _, tree₁⟩ := Peg.execute_of_steps ended₁
  obtain ⟨plain', left₂, answers₂, matched₂, position₂, _, tree₂⟩ := Peg.execute_of_steps ended
  rw [halts] at answers₂
  cases answers₂
  refine ⟨fuel₁, outcome, left₁, answers₁, matched₁.trans matched₂.symm, ?_, ?_⟩
  · intro succeeded
    obtain ⟨⟨stop, logged⟩, same⟩ := Option.isSome_iff_exists.mp (matched₁.symm.trans succeeded)
    rw [position₁, position₂, (found₁ stop logged same).1, (found₂ stop logged same).1]
  · intro told
    rw [tree₁, tree₂]
    cases result with
    | none => rfl
    | some success =>
        obtain ⟨stop, logged⟩ := success
        obtain ⟨pos₁, reads₁⟩ := found₁ stop logged rfl
        obtain ⟨pos₂, reads₂⟩ := found₂ stop logged rfl
        have unmemoized : (running factory laid bare).Exact :=
          .inl (MemoTable.ofOptions_disabled options _)
        have flat := derives.flat
        have same₁ := result_reads reads₁ (told.imp .inr id) flat task.factory stop
        have same₂ := result_reads reads₂ (.inl unmemoized) flat task.factory stop
        have same := congrArg (fun built => some built.1) (same₁.trans same₂.symm)
        rw [pos₁, pos₂]
        exact same

/-! ### A rule with and without a node -/

/-- Two alternatives that begin with one rule, labelled inside another label, and go on with `b` and
with `c`; all of it makes a node. -/
def nestedExpr : Expr Unit :=
  let child : Expr Unit := .link .null (.link .null (.call ()))
  .seq (.act (.node 0)) (.seq (.choice (.seq child (.test (.byte 0x62) .once))
    (.seq child (.test (.byte 0x63) .once))) (.act (.close 0 .null none)))

/-- Code of the alternatives from the third place on, with a memoized site in each; that of the rule
follows behind it. -/
def nestedCode {t : Type} (site : Nat → t) : List (Inst t) :=
  [⟨.tree (.node 0), site 3⟩, ⟨.control (.alt (site 14)), site 4⟩,
    ⟨.tree .checkpoint, site 5⟩, ⟨.memo (.treeLookup ⟨0⟩ .null (site 11)), site 6⟩,
    ⟨.control (.alt (site 25)), site 7⟩, ⟨.tree .checkpoint, site 8⟩,
    ⟨.control (.call (site 26) (site 9) .null), site 9⟩, ⟨.tree (.emit .null), site 10⟩,
    ⟨.memo (.treeStore ⟨0⟩), site 11⟩, ⟨.tree (.emit .null), site 12⟩,
    ⟨.test (.byte 0x62) .once, site 13⟩, ⟨.control .succ, site 23⟩,
    ⟨.tree .checkpoint, site 15⟩, ⟨.memo (.treeLookup ⟨0⟩ .null (site 21)), site 16⟩,
    ⟨.control (.alt (site 25)), site 17⟩, ⟨.tree .checkpoint, site 18⟩,
    ⟨.control (.call (site 26) (site 19) .null), site 19⟩, ⟨.tree (.emit .null), site 20⟩,
    ⟨.memo (.treeStore ⟨0⟩), site 21⟩, ⟨.tree (.emit .null), site 22⟩,
    ⟨.test (.byte 0x63) .once, site 23⟩, ⟨.tree (.close 0 .null none), site 24⟩,
    ⟨.control .ret, site 0⟩, ⟨.memo (.storeFailure ⟨0⟩), site 0⟩]

def nodeRule : Expr Unit :=
  .seq (.act (.node 0)) (.seq (.test (.byte 0x61) .once) (.act (.close 0 .null none)))

def nodeRuleCode {t : Type} (site : Nat → t) : List (Inst t) :=
  [⟨.tree (.node 0), site 27⟩, ⟨.test (.byte 0x61) .once, site 28⟩,
    ⟨.tree (.close 0 .null none), site 29⟩, ⟨.control .ret, site 0⟩]

def bareRule : Expr Unit := .test (.byte 0x61) .once

def bareRuleCode {t : Type} (site : Nat → t) : List (Inst t) :=
  [⟨.test (.byte 0x61) .once, site 27⟩, ⟨.control .ret, site 0⟩]

def nestedProgram (rule : List (Inst InstId)) : Program where
  insts := #[exitInst false InstId.exitFail, exitInst true InstId.exitOk] ++
    (nestedCode InstId.mk ++ rule)
  sets := .empty
  literals := .empty
  dispatch := #[]
  memoPoints := #[⟨.null, true, false⟩]
  symbols := .initial
  start := ⟨2⟩

theorem nested_finished (rule : List (Inst Target)) (code : List (Inst InstId))
    (fits : rule.length ≤ 4)
    (resolved : ({ Assembler.initial with
        memoPoints := #[⟨.null, true, false⟩]
        insts := Assembler.initial.insts ++ (nestedCode (fun place => .inst ⟨place⟩) ++ rule) } :
      Assembler).finish (.inst ⟨2⟩) = .ok (nestedProgram code)) :
    (nestedProgram code).Finished := by
  have pointed : Assembler.initial.memoPoint ⟨.null, true, false⟩ =
      .ok (⟨0⟩, { Assembler.initial with memoPoints := #[⟨.null, true, false⟩] }) :=
    rfl
  have room : (nestedCode (fun place => Target.inst ⟨place⟩) ++ rule).length ≤ 28 := by
    rw [List.length_append]
    exact Nat.add_le_add_left fits 24
  refine ⟨_, .inst ⟨2⟩, (Assembler.Built.initial.memoPoint pointed).append _ ?_, resolved⟩
  exact Nat.le_trans (Nat.add_le_add_left room 2) (by decide)

def nestedLayout : Layout Unit :=
  ⟨fun _ => ⟨26⟩, fun point => if point = ⟨0⟩ then some () else none⟩

theorem nested_meets (rule : List (Inst InstId)) {op : Op InstId} {k : InstId} (index : Nat)
    (found : (nestedCode InstId.mk)[index]? = some ⟨op, k⟩) :
    Meets (nestedProgram rule) ⟨index + 2⟩ op k := by
  have within := (List.getElem?_eq_some_iff.mp found).1
  have listed : (nestedProgram rule).insts.toList = exitInst false InstId.exitFail ::
      exitInst true InstId.exitOk :: (nestedCode InstId.mk ++ rule) :=
    Array.toList_appendList
  have placed : (nestedProgram rule).insts[index + 2]? = some ⟨op, k⟩ := by
    rw [← Array.getElem?_toList, listed]
    exact (List.getElem?_append_left within).trans found
  exact ⟨⟨index + 2⟩, k, .here _, placed, .here k⟩

theorem nested_code (rule : List (Inst InstId)) :
    TreeCode (nestedProgram rule) nestedLayout nestedExpr ⟨2⟩ ⟨24⟩ := by
  let point : MemoPoint := ⟨.null, true, false⟩
  have meets := @nested_meets rule
  have firstSite : SiteCode (nestedProgram rule) nestedLayout .null () ⟨5⟩ ⟨11⟩ :=
    ⟨⟨0⟩, point, ⟨11⟩, ⟨6⟩, ⟨25⟩, ⟨7⟩, ⟨8⟩, ⟨9⟩, ⟨10⟩, ⟨0⟩, rfl, rfl, rfl, meets 3 rfl, .here _,
      meets 4 rfl, meets 5 rfl, ⟨⟨26⟩, ⟨9⟩, .null, ⟨9⟩, meets 6 rfl, .here _, .here _⟩, meets 7 rfl,
      meets 8 rfl, meets 23 rfl⟩
  have secondSite : SiteCode (nestedProgram rule) nestedLayout .null () ⟨15⟩ ⟨21⟩ :=
    ⟨⟨0⟩, point, ⟨21⟩, ⟨16⟩, ⟨25⟩, ⟨17⟩, ⟨18⟩, ⟨19⟩, ⟨20⟩, ⟨0⟩, rfl, rfl, rfl, meets 13 rfl,
      .here _, meets 14 rfl, meets 15 rfl, ⟨⟨26⟩, ⟨19⟩, .null, ⟨19⟩, meets 16 rfl, .here _, .here _⟩,
      meets 17 rfl, meets 18 rfl, meets 23 rfl⟩
  have first : TreeCode (nestedProgram rule) nestedLayout
      (.seq (.link .null (.link .null (.call ()))) (.test (.byte 0x62) .once)) ⟨4⟩ ⟨13⟩ :=
    ⟨⟨12⟩, .inl ⟨⟨5⟩, ⟨11⟩, meets 2 rfl, .inr ⟨(), rfl, firstSite⟩, meets 9 rfl⟩, .byte 0x62, rfl,
      meets 10 rfl⟩
  have second : TreeCode (nestedProgram rule) nestedLayout
      (.seq (.link .null (.link .null (.call ()))) (.test (.byte 0x63) .once)) ⟨14⟩ ⟨23⟩ :=
    ⟨⟨22⟩, .inl ⟨⟨15⟩, ⟨21⟩, meets 12 rfl, .inr ⟨(), rfl, secondSite⟩, meets 19 rfl⟩, .byte 0x63,
      rfl, meets 20 rfl⟩
  exact ⟨⟨3⟩, ⟨.node 0, rfl, meets 0 rfl⟩, ⟨23⟩,
    ⟨⟨14⟩, ⟨4⟩, ⟨13⟩, meets 1 rfl, first, meets 11 rfl, second⟩,
    ⟨.close 0 .null none, rfl, meets 21 rfl⟩⟩

theorem nested_ends (rule : List (Inst InstId)) : Ends (nestedProgram rule) ⟨24⟩ :=
  ⟨_, .inl (nested_meets rule 22 rfl)⟩

def outcome? : Option (Answer σ τ) → Option (Outcome τ)
  | some (.outcome outcome _) => some outcome
  | _ => none

theorem outcome?_eq_some {answer : Option (Answer σ τ)} {outcome : Outcome τ}
    (found : outcome? answer = some outcome) : ∃ left, answer = some (.outcome outcome left) := by
  unfold outcome? at found
  split at found
  · cases found
    exact ⟨_, rfl⟩
  · cases found

theorem logs_some {action : Action} {pos : Nat} {intents : List (Intent τ)}
    (logs : action.intents? pos = some intents) : intents ≠ [] := by
  cases action with
  | tag | replace =>
      cases logs
      exact List.cons_ne_nil _ _
  | node | close | fold =>
      obtain ⟨place, _, rfl⟩ := Option.map_eq_some_iff.mp logs
      exact List.cons_ne_nil _ _

/-- The second alternative attaches the node that the first one recorded, as it would build it. -/
theorem trees_transparent_with_nodes :
    let task : Task Unit Tree :=
      ⟨nestedProgram (nodeRuleCode InstId.mk), .ofBytes #[0x61, 0x63], Tree.factory⟩
    let options : Options := { Options.initial with slots := some 1 }
    ∃ fuel fuel' outcome plain left left',
      execute task fuel ⟨2⟩ { options with memo := .disabled } () = some (.outcome plain left) ∧
      execute task fuel' ⟨2⟩ options () = some (.outcome outcome left') ∧
      outcome.matched = plain.matched ∧
      (outcome.matched = true → outcome.position = plain.position) ∧ outcome.tree = plain.tree := by
  intro task options
  have finished : task.program.Finished :=
    nested_finished (nodeRuleCode fun place => .inst ⟨place⟩) _ (by decide) rfl
  have meets {op : Op InstId} {place k : InstId}
      (found : task.program.inst? place = some ⟨op, k⟩) : Meets task.program place op k :=
    ⟨place, k, .here place, found, .here k⟩
  let rules : Unit → Expr Unit := fun _ => nodeRule
  have laid : RuleCode task.program nestedLayout rules :=
    fun _ => ⟨⟨29⟩, .exitFail, ⟨⟨27⟩, ⟨.node 0, rfl, meets rfl⟩, ⟨28⟩, ⟨.byte 0x61, rfl, meets rfl⟩,
      ⟨.close 0 .null none, rfl, meets rfl⟩⟩, meets rfl⟩
  have builds : MatchesBuild task.input Tree.ofNode rules nestedLayout := by
    intro point rule pos stop logged _ derives
    obtain ⟨middle, opened, rest, opens, _, rfl⟩ := derives.seq_cases
    cases opens with
    | act logs => exact List.append_ne_nil_of_left_ne_nil (logs_some logs) rest
  have halted : (outcome? (execute task 100 ⟨2⟩ { options with memo := .disabled } ())).isSome := by
    decide +kernel
  obtain ⟨plain, found⟩ := Option.isSome_iff_exists.mp halted
  obtain ⟨left, answers⟩ := outcome?_eq_some found
  obtain ⟨fuel', outcome, left', answers', matched, position, tree⟩ :=
    trees_transparent_up_to_vacant rfl finished laid (.here _) (nested_code _) (nested_ends _) answers
  exact ⟨100, fuel', outcome, plain, left, left', answers, answers', matched, position,
    tree (.inl builds)⟩

/-- With a rule that makes no node the second alternative attaches a node all the same: the lookup has
left a vacant link where the rule leaves nothing. -/
theorem vacant_link_in_tree :
    let task : Task Unit Tree :=
      ⟨nestedProgram (bareRuleCode InstId.mk), .ofBytes #[0x61, 0x63], Tree.factory⟩
    let options : Options := { Options.initial with slots := some 1 }
    task.program.Finished ∧ RuleCode task.program nestedLayout (fun _ => bareRule) ∧
      TreeCode task.program nestedLayout nestedExpr ⟨2⟩ ⟨24⟩ ∧ Ends task.program ⟨24⟩ ∧
      ∃ outcome plain left left',
        execute task 100 ⟨2⟩ { options with memo := .disabled } () = some (.outcome plain left) ∧
        execute task 100 ⟨2⟩ options () = some (.outcome outcome left') ∧
        outcome.matched = true ∧ plain.matched = true ∧ outcome.tree ≠ plain.tree := by
  intro task options
  have finished : task.program.Finished :=
    nested_finished (bareRuleCode fun place => .inst ⟨place⟩) _ (by decide) rfl
  have meets {op : Op InstId} {place k : InstId}
      (found : task.program.inst? place = some ⟨op, k⟩) : Meets task.program place op k :=
    ⟨place, k, .here place, found, .here k⟩
  have laid : RuleCode task.program nestedLayout (fun _ => bareRule) :=
    fun _ => ⟨⟨27⟩, .exitFail, ⟨.byte 0x61, rfl, meets rfl⟩, meets rfl⟩
  let seen (outcome : Outcome Tree) : Bool × Option Nat :=
    (outcome.matched, outcome.tree.map fun tree => tree.children.length)
  have memoized : (outcome? (execute task 100 ⟨2⟩ options ())).map seen = some (true, some 1) := by
    decide +kernel
  have evaluated : (outcome? (execute task 100 ⟨2⟩ { options with memo := .disabled } ())).map seen =
      some (true, some 0) := by
    decide +kernel
  obtain ⟨outcome, found, shows⟩ := Option.map_eq_some_iff.mp memoized
  obtain ⟨plain, found', shows'⟩ := Option.map_eq_some_iff.mp evaluated
  obtain ⟨left, answers⟩ := outcome?_eq_some found
  obtain ⟨left', answers'⟩ := outcome?_eq_some found'
  refine ⟨finished, laid, nested_code _, nested_ends _, outcome, plain, left', left, answers',
    answers, (Prod.mk.inj shows).1, (Prod.mk.inj shows').1, fun same => ?_⟩
  have counts := (Prod.mk.inj shows).2
  rw [same, (Prod.mk.inj shows').2] at counts
  cases counts

end Packrat.TreePeg
