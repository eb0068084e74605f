/-
Closing a scope. While the frame of a scope is on the stack, no instruction cuts the log or the bindings
below what the frame saved, or changes what lies under it. So the end of a scope of the bindings brings
back the bindings of its beginning, and the end of a scope of the log leaves there the node of what was
logged since.
-/

import Packrat.Proofs.Machine.Recognition
import Packrat.Proofs.Machine.Roots
import Packrat.Proofs.Tree.Growth

namespace Packrat

def Op.opensTree {t : Type} : Op t → Bool
  | .tree .checkpoint => true
  | _ => false

def Frame.isScope : Frame → Bool
  | .tree _ => true
  | .bindings _ => true
  | _ => false

namespace Machine

variable {σ τ : Type} {task : Task σ τ} {program : Program} {past : List (Config σ τ)}
  {now : Config σ τ} {m m' : Machine σ τ} {op : Op InstId} {inst : Inst InstId}
  {live added : List (Nat × Intent τ)}

/-! ### Sparing -/

def ScopesAmong (frames frames' : List Frame) : Prop :=
  ∀ (index : Nat) (frame : Frame), frame.isScope = true → frames'[index]? = some frame → frames[index]? = some frame

namespace ScopesAmong

theorem refl (frames : List Frame) : ScopesAmong frames frames := fun _ _ _ found => found

theorem take (frames : List Frame) (height : Nat) : ScopesAmong frames (frames.take height) := by
  intro index frame _ found
  have within := (List.getElem?_eq_some_iff.mp found).1
  have below : index < height := Nat.lt_of_lt_of_le within (List.length_take_le height frames)
  rw [List.getElem?_take_of_lt below] at found
  exact found

theorem concat (frames : List Frame) {top : Frame} (plain : top.isScope = false) :
    ScopesAmong frames (frames ++ [top]) := by
  intro index frame scope found
  rcases getElem?_concat_cases found with below | ⟨_, same⟩
  · exact below
  · rw [same, plain] at scope
    cases scope

theorem drop (m : Machine σ τ) : ScopesAmong m.frames.toList m.drop.frames.toList := by
  rw [drop_frames]
  exact take _ _

theorem set (frames : List Frame) (index : Nat) {other : Frame} (plain : other.isScope = false) :
    ScopesAmong frames (frames.set index other) := by
  intro place frame scope found
  by_cases here : index = place
  · subst here
    have within := (List.getElem?_eq_some_iff.mp found).1
    rw [List.length_set] at within
    rw [List.getElem?_set_self within, Option.some.injEq] at found
    rw [← found, plain] at scope
    cases scope
  · rw [List.getElem?_set_ne here] at found
    exact found

end ScopesAmong

/-- No scope is opened, and what the open ones saved is left alone. -/
structure Spares (m m' : Machine σ τ) : Prop where
  frames : ScopesAmong m.frames.toList m'.frames.toList
  intents : ∀ mark, Frame.tree mark ∈ m'.frames.toList →
    m'.log.intents.take mark.number = m.log.intents.take mark.number
  entries : ∀ mark, Frame.bindings mark ∈ m'.frames.toList →
    m'.bindings.entries.toList.take mark.size = m.bindings.entries.toList.take mark.size

namespace Spares

theorem plain (frames : ScopesAmong m.frames.toList m'.frames.toList) (log : m'.log = m.log)
    (bindings : m'.bindings = m.bindings) : Spares m m' :=
  ⟨frames, fun _ _ => by rw [log], fun _ _ => by rw [bindings]⟩

theorem refl (m : Machine σ τ) : Spares m m := plain (.refl _) rfl rfl

theorem push {frame : Frame} (other : frame.isScope = false) (frames : m'.frames = m.frames.push frame)
    (log : m'.log = m.log) (bindings : m'.bindings = m.bindings) : Spares m m' := by
  refine plain ?_ log bindings
  rw [frames, Array.toList_push]
  exact .concat _ other

theorem lower {height : Nat} (frames : m'.frames.toList = m.frames.toList.take height)
    (log : m'.log = m.log) (bindings : m'.bindings = m.bindings) : Spares m m' := by
  refine plain ?_ log bindings
  rw [frames]
  exact .take _ height

theorem renew (m : Machine σ τ) (index : Nat) (point : ChoicePoint) :
    Spares m (m.renewChoice index point) := by
  refine plain ?_ rfl rfl
  unfold Machine.renewChoice
  rw [Array.toList_setIfInBounds]
  exact .set _ index rfl

theorem trans {m₁ m₂ m₃ : Machine σ τ} (first : Spares m₁ m₂) (second : Spares m₂ m₃) :
    Spares m₁ m₃ := by
  have member {frame : Frame} (scope : frame.isScope = true) (member : frame ∈ m₃.frames.toList) :
      frame ∈ m₂.frames.toList := by
    obtain ⟨index, found⟩ := List.getElem?_of_mem member
    exact List.mem_of_getElem? (second.frames index frame scope found)
  constructor
  · intro index frame scope found
    exact first.frames index frame scope (second.frames index frame scope found)
  · intro mark held
    exact (second.intents mark held).trans (first.intents mark (member rfl held))
  · intro mark held
    exact (second.entries mark held).trans (first.entries mark (member rfl held))

end Spares

/-! ### What the marks of open scopes allow -/

theorem mem_treeMark {frames : List Frame} {mark : LogMark} (member : Frame.tree mark ∈ frames) :
    mark ∈ frames.filterMap Frame.treeMark? :=
  List.mem_filterMap.mpr ⟨_, member, rfl⟩

theorem mem_bindingMark {frames : List Frame} {mark : BindingMark}
    (member : Frame.bindings mark ∈ frames) : mark ∈ frames.filterMap Frame.bindingMark? :=
  List.mem_filterMap.mpr ⟨_, member, rfl⟩

theorem Held.intents_spared (held : Held program past m live) {frames : List Frame} {height kept : Nat}
    {log : TreeLog τ} {free : List Nat} (lowered : frames = m.frames.toList.take height)
    (layout : log.Layout (live.take kept ++ added) free)
    (trees : Ascends Frame.treeMark? LogMark.number kept frames) {mark : LogMark}
    (member : Frame.tree mark ∈ frames) :
    log.intents.take mark.number = m.log.intents.take mark.number := by
  obtain ⟨free', before⟩ := held.layout
  have below := trees.bound mark (mem_treeMark member)
  have marks : TreeLog.MarksLive live mark := by
    rw [lowered] at member
    exact held.marks mark (mem_treeMark (List.mem_of_mem_take member))
  rw [layout.intents_eq, before.intents_eq, ← List.map_take, ← List.map_take,
    marks.take_keep below added]

theorem Held.intents_grown (held : Held program past m live) {log : TreeLog τ} {free : List Nat}
    (layout : log.Layout (live ++ added) free) {mark : LogMark}
    (member : Frame.tree mark ∈ m.frames.toList) :
    log.intents.take mark.number = m.log.intents.take mark.number := by
  have whole : log.Layout (live.take live.length ++ added) free := by
    rw [List.take_length]
    exact layout
  exact held.intents_spared List.take_length.symm whole held.trees member

theorem entries_spared {height : Nat} (mark : BindingMark)
    (tables : Ascends Frame.bindingMark? BindingMark.size mark.size (m.frames.toList.take height))
    {other : BindingMark} (member : Frame.bindings other ∈ m.frames.toList.take height) :
    (m.bindings.restore mark).entries.toList.take other.size =
      m.bindings.entries.toList.take other.size := by
  have below := tables.bound other (mem_bindingMark member)
  rw [Bindings.entries_restore, List.take_take, Nat.min_eq_left below]

theorem Held.spares_binding (held : Held program past m live) (table : Symbol)
    (value : Option Bytes) (unchanged : Bool) :
    Spares m (m.withBindings fun bindings => bindings.push table value unchanged) := by
  refine ⟨.refl _, fun _ _ => rfl, fun mark member => ?_⟩
  obtain ⟨entry, entries⟩ := Bindings.entries_push m.bindings table value unchanged
  have within := held.tables.bound mark (mem_bindingMark member)
  change (m.bindings.push table value unchanged).entries.toList.take mark.size = _
  rw [entries]
  exact List.take_append_of_le_length (by rw [Array.length_toList]; exact within)

/-! ### Every step spares the open scopes -/

theorem Update.spares (update : Update task op m m') (held : Held program past m live)
    (tables : op.opensScope = false) (trees : op.opensTree = false) : Spares m m' := by
  obtain ⟨free, layout⟩ := held.layout
  cases update with
  | checkpoint same => rw [same] at trees; cases trees
  | enter opens => rw [opens] at tables; cases tables
  | save | call | count | alt => exact .push rfl rfl rfl rfl
  | back | drop => exact .lower (drop_frames m) rfl rfl
  | cut | store => exact .lower Array.toList_shrink rfl rfl
  | renew index point => exact .renew m index point
  | shift | consume | look | tick | skip | storeFailure => exact .plain (.refl _) rfl rfl
  | append intent =>
      obtain ⟨added, free', grown, _⟩ := layout.append intent
      exact ⟨.refl _, fun _ => held.intents_grown grown, fun _ _ => rfl⟩
  | link label child =>
      obtain ⟨added, free', grown, _⟩ := layout.link label child
      exact ⟨.refl _, fun _ => held.intents_grown grown, fun _ _ => rfl⟩
  | define table value => exact held.spares_binding table (some value) _
  | mask table => exact held.spares_binding table none _
  | emit mark label pops =>
      cases enabled : m.log.enabled with
      | false =>
          refine .lower (drop_frames m) ?_ rfl
          simp only [TreeLog.commit, enabled, Bool.false_eq_true, if_false]
      | true =>
          have member : mark ∈ m.frames.toList.filterMap Frame.treeMark? :=
            List.mem_filterMap.mpr ⟨_, List.mem_of_getElem? pops.found, rfl⟩
          obtain ⟨added, free', built, _⟩ :=
            layout.commit (held.marks mark member) enabled task.factory label m.nodes
          have under := held.trees.below pops.found rfl
          rw [← drop_frames] at under
          exact ⟨.drop m, fun _ => held.intents_spared (drop_frames m) built under, fun _ _ => rfl⟩
  | leave mark pops =>
      have under := held.tables.below pops.found rfl
      refine ⟨.drop m, fun _ _ => rfl, fun other member => ?_⟩
      change Frame.bindings other ∈ m.drop.frames.toList at member
      rw [drop_frames] at member
      exact entries_spared mark under member

theorem Failure.spares (failure : Failure m m') (held : Held program past m live) : Spares m m' := by
  cases failure with
  | idle => exact .plain (.refl _) rfl rfl
  | resume index point caught found =>
      rw [← Array.getElem?_toList] at found
      obtain ⟨free, layout⟩ := held.layout
      have member : point.tree ∈ m.frames.toList.filterMap Frame.treeMark? :=
        List.mem_filterMap.mpr ⟨_, List.mem_of_getElem? found, rfl⟩
      obtain ⟨free', aborted⟩ := layout.abort (held.marks _ member)
      have whole : (m.log.abort point.tree).Layout (live.take point.tree.number ++ []) free' := by
        rw [List.append_nil]
        exact aborted
      have frames : (m.resume index point).frames.toList = m.frames.toList.take index :=
        Array.toList_shrink
      have under := held.trees.below found rfl
      refine ⟨?_, ?_, ?_⟩
      · rw [frames]
        exact .take _ _
      · intro mark left
        rw [frames] at left
        exact held.intents_spared rfl whole under left
      · intro mark left
        rw [frames] at left
        exact entries_spared point.bindings (held.tables.below found rfl) left

theorem recheck_spares_scopes (m : Machine σ τ) (site : Site) (next : InstId) :
    Spares m (after (m.recheck site next)) := by
  unfold recheck
  cases m.innermost site with
  | error fault => exact .refl m
  | ok answer =>
      by_cases idle : answer.2.pos = m.pos
      · simp only [idle, if_true]
        exact .refl m
      · simp only [idle, if_false]
        exact .renew m answer.1 answer.2

theorem exec_spares_of_sets (task : Task σ τ) (place : InstId) (m : Machine σ τ)
    (sets : inst.op.setsChoice = true) : Spares m (after (m.exec task place inst)) := by
  obtain ⟨op, next⟩ := inst
  cases op with
  | control op =>
      cases op with
      | alt failure => exact .push rfl rfl rfl rfl
      | guard => exact recheck_spares_scopes m _ next
      | step => exact recheck_spares_scopes m _ next
      | nop | exit | pos | back | move | jump | call | ret | succ | fail => cases sets
  | test | dispatch | tree | bindings | count | memo => cases sets

theorem Held.exec_spares (held : Held task.program past m live) (place : InstId)
    (tables : inst.op.opensScope = false) (trees : inst.op.opensTree = false) :
    Spares m (after (m.exec task place inst)) ∧
      ∀ failing, m.exec task place inst = .fail failing →
        ∃ live', Held task.program past failing live' := by
  cases sets : inst.op.setsChoice with
  | true =>
      -- a renewed choice point may break the order of the marks, but then the instruction goes on
      refine ⟨exec_spares_of_sets task place m sets, fun failing failed => ?_⟩
      rw [fail_of_sets sets failed]
      exact ⟨live, held⟩
  | false =>
      have kept : (∃ live', Held task.program past (after (m.exec task place inst)) live') ∧
          Spares m (after (m.exec task place inst)) := by
        refine updates_keep
          (P := fun m' => (∃ live', Held task.program past m' live') ∧ Spares m m') ?_
          (exec_leaves task place inst m).updates ⟨⟨live, held⟩, .refl m⟩
        rintro m₁ m₂ ⟨⟨live', held'⟩, spared⟩ update
        exact ⟨held'.edits (update.edits sets), spared.trans (update.spares held' tables trees)⟩
      refine ⟨kept.2, fun failing failed => ?_⟩
      have held' := kept.1
      rw [failed] at held'
      exact held'

/-- An instruction that opens no scope spares the scopes that are open, also where it fails. -/
theorem Held.step_spares (held : Held task.program past now.machine live)
    (found : task.program.inst? now.place = some inst) (tables : inst.op.opensScope = false)
    (trees : inst.op.opensTree = false) :
    Spares now.machine (reached (now.machine.step task now.place)) := by
  obtain ⟨spared, failing⟩ := held.exec_spares now.place tables trees
  rw [step_eq found]
  cases effect : now.machine.exec task now.place inst with
  | goto target m' => rw [effect] at spared; exact spared
  | halt reason m' => rw [effect] at spared; exact spared
  | fail m' =>
      rw [effect] at spared
      obtain ⟨live', held'⟩ := failing m' effect
      rcases fail_cases m' now.place with failed | same
      · exact spared.trans (failed.spares held')
      · change Spares now.machine (reached (m'.fail now.place))
        rw [same]
        exact spared

/-! ### The frames of scopes -/

/-- Every open scope was opened by an earlier step, and what there was then is there still. -/
structure ScopesRooted (program : Program) (past : List (Config σ τ)) (m : Machine σ τ) : Prop where
  tables : Rooted program Op.opensScope Frame.bindings?
    (fun _ mark origin =>
      m.bindings.entries.toList.take mark.size = origin.bindings.entries.toList)
    past m.frames.toList
  trees : Rooted program Op.opensTree Frame.tree?
    (fun _ mark origin => m.log.intents.take mark.number = origin.log.intents) past m.frames.toList

namespace ScopesRooted

theorem later (rooted : ScopesRooted program past now.machine) :
    ScopesRooted program (now :: past) now.machine :=
  ⟨rooted.tables.later, rooted.trees.later⟩

theorem spares (rooted : ScopesRooted program past m) (spared : Spares m m') :
    ScopesRooted program past m' := by
  constructor
  · apply Rooted.mono rooted.tables
    intro index frame mark found reads
    cases frame with
    | bindings saved =>
        cases reads
        refine ⟨_, mark, spared.frames index _ rfl found, rfl, fun origin held => ?_⟩
        exact (spared.entries mark (List.mem_of_getElem? found)).trans held
    | choice | ret | position | tree | count => cases reads
  · apply Rooted.mono rooted.trees
    intro index frame mark found reads
    cases frame with
    | tree saved =>
        cases reads
        refine ⟨_, mark, spared.frames index _ rfl found, rfl, fun origin held => ?_⟩
        exact (spared.intents mark (List.mem_of_getElem? found)).trans held
    | choice | ret | position | bindings | count => cases reads

theorem enter (rooted : ScopesRooted program past now.machine)
    (found : program.inst? now.place = some inst) (opens : inst.op.opensScope = true) :
    ScopesRooted program (now :: past)
      (now.machine.push (.bindings now.machine.bindings.save)) := by
  have frames : (now.machine.push (.bindings now.machine.bindings.save)).frames.toList =
      now.machine.frames.toList ++ [.bindings now.machine.bindings.save] := Array.toList_push
  constructor
  · rw [frames]
    refine Rooted.push rooted.tables found opens (fun mark reads => ?_) fun _ _ _ _ same => same
    cases reads
    exact now.machine.bindings.take_size
  · rw [frames]
    exact Rooted.concat rooted.trees.later rfl

theorem checkpoint (rooted : ScopesRooted program past now.machine)
    (found : program.inst? now.place = some inst) (opens : inst.op.opensTree = true)
    {live : List (Nat × Intent τ)} {free : List Nat} (layout : now.machine.log.Layout live free) :
    ScopesRooted program (now :: past) (now.machine.push (.tree now.machine.log.mark)) := by
  have frames : (now.machine.push (.tree now.machine.log.mark)).frames.toList =
      now.machine.frames.toList ++ [.tree now.machine.log.mark] := Array.toList_push
  constructor
  · rw [frames]
    exact Rooted.concat rooted.tables.later rfl
  · rw [frames]
    refine Rooted.push rooted.trees found opens (fun mark reads => ?_) fun _ _ _ _ same => same
    cases reads
    apply List.take_of_length_le
    change now.machine.log.intents.length ≤ now.machine.log.length
    rw [layout.intents_eq, List.length_map, layout.length_eq]

theorem step (rooted : ScopesRooted task.program past now.machine)
    (held : Held task.program past now.machine live) :
    ScopesRooted task.program (now :: past) (reached (now.machine.step task now.place)) := by
  cases found : task.program.inst? now.place with
  | none =>
      simp only [Machine.step, found]
      exact rooted.later
  | some inst =>
      cases tables : inst.op.opensScope with
      | false =>
          cases trees : inst.op.opensTree with
          | false => exact rooted.later.spares (held.step_spares found tables trees)
          | true =>
              obtain ⟨free, layout⟩ := held.layout
              have pushed := rooted.checkpoint found trees layout
              obtain ⟨op, next⟩ := inst
              cases op with
              | tree op =>
                  cases op with
                  | checkpoint =>
                      rw [step_eq found]
                      exact pushed
                  | node | close | tag | replace | fold | push | pop | emit => cases trees
              | control | test | dispatch | bindings | count | memo => cases trees
      | true =>
          have pushed := rooted.enter found tables
          obtain ⟨op, next⟩ := inst
          cases op with
          | bindings op =>
              cases op with
              | enter =>
                  rw [step_eq found]
                  exact pushed
              | mask table =>
                  rw [step_eq found]
                  -- the mask is bound above the scope that it opens
                  obtain ⟨live', held'⟩ := held.edit .enter
                  exact pushed.spares (held'.spares_binding table none _)
              | leave | define | bound | holds | consume | isLatest | isVisible => cases tables
          | control | test | dispatch | tree | count | memo => cases tables

end ScopesRooted

/-- The frame of every scope was pushed where the scope was opened, and what the log and the bindings
held then is below its mark. -/
theorem Execution.scopes_rooted {options : Options} (execution : Execution task options past now)
    (disciplined : ∀ config ∈ past, Disciplined task.program config) :
    ScopesRooted task.program past now.machine := by
  refine execution.keeps (fun past m => (∀ config ∈ past, Disciplined task.program config) →
    ScopesRooted task.program past m) ?_ ?_ ?_ disciplined
  · intro nodes _
    have single {frame : Frame} {index : Nat}
        (found : [Frame.ret .exitOk][index]? = some frame) : frame = .ret .exitOk :=
      List.mem_singleton.mp (List.mem_of_getElem? found)
    constructor
    · intro index frame mark found reads
      rw [single found] at reads
      cases reads
    · intro index frame mark found reads
      rw [single found] at reads
      cases reads
  · intro past now before ih disciplined
    have earlier : ∀ config ∈ past, Disciplined task.program config := fun config member =>
      disciplined config (List.mem_cons_of_mem now member)
    obtain ⟨live, held⟩ := before.held earlier
    exact (ih earlier).step held
  · intro past m reason ih disciplined
    have left : Spares m (m.leave reason) := by
      cases reason <;> exact .plain (.refl _) rfl rfl
    exact ((ih disciplined).spares left).spares (.push rfl rfl rfl rfl)

/-! ### Logs that are in use, and others -/

theorem Update.enabled (update : Update task op m m') : m'.log.enabled = m.log.enabled := by
  cases update with
  | append intent => exact (TreeLog.Extends.append _ intent).1
  | link label child => exact (TreeLog.Extends.link _ label child).1
  | emit mark label => exact TreeLog.Extends.enabled_commit task.factory m.log mark label m.nodes
  | save | back | shift | call | drop | count | alt | renew | cut | consume | checkpoint | enter
  | leave | define | mask | look | tick | skip | store | storeFailure => rfl

theorem Failure.enabled (failure : Failure m m') : m'.log.enabled = m.log.enabled := by
  cases failure with
  | idle => rfl
  | resume index point => exact TreeLog.Extends.enabled_abort m.log point.tree

/-- A log is in use from the start of the machine on, or nothing is ever logged. -/
theorem Execution.logs_or_quiet {options : Options} (execution : Execution task options past now) :
    now.machine.log.enabled = true ∨ ∃ nodes, Quiet nodes now.machine := by
  refine execution.keeps (fun _ m => m.log.enabled = true ∨ ∃ nodes, Quiet nodes m) ?_ ?_ ?_
  · intro nodes
    cases built : options.tree with
    | true => exact .inl built
    | false =>
        have same : { options with tree := false } = options := by rw [← built]
        have quiet := quiet_initial (τ := τ) task.program options nodes
        rw [same] at quiet
        exact .inr ⟨nodes, quiet.push rfl⟩
  · intro past now _ either
    refine step_keeps (P := fun m => m.log.enabled = true ∨ ∃ nodes, Quiet nodes m) ?_ ?_ either
    · rintro inst _ m m' (enabled | ⟨nodes, quiet⟩) update
      · exact .inl (update.enabled.trans enabled)
      · exact .inr ⟨nodes, update.quiet quiet⟩
    · rintro m m' (enabled | ⟨nodes, quiet⟩) failure
      · exact .inl (failure.enabled.trans enabled)
      · exact .inr ⟨nodes, failure.quiet quiet⟩
  · rintro past m reason (enabled | ⟨nodes, quiet⟩)
    · exact .inl (by cases reason <;> exact enabled)
    · exact .inr ⟨nodes, (quiet.leave reason).push rfl⟩

/-! ### Closing -/

theorem ScopesRooted.closed_table (rooted : ScopesRooted program past m) {mark : BindingMark}
    (pops : m.Pops (.bindings mark)) :
    ∃ origin, PushedBy program Op.opensScope past (m.frames.size - 1) origin ∧
      (m.bindings.restore mark).entries.toList = origin.machine.bindings.entries.toList := by
  obtain ⟨origin, pushed, same⟩ := rooted.tables _ _ mark pops.found rfl
  refine ⟨origin, pushed, ?_⟩
  rw [Bindings.entries_restore]
  exact same

/-- What a scope of the log leaves: the intents that were live where it was opened, and the node of those
that were logged since, which is remembered as the latest. -/
structure Emits (factory : TreeFactory σ τ) (before : List (Intent τ)) (log : TreeLog τ)
    (label : Symbol) (nodes : σ) (since : List (Intent τ)) (log' : TreeLog τ) : Prop where
  split : log.intents = before ++ since
  intents : log'.intents =
    before ++ TreeLog.attached label (TreeLog.nodeOf factory since nodes)
  latest : log'.latestLinked = TreeLog.nodeOf factory since nodes

theorem Held.closed_tree (held : Held program past m live) (rooted : ScopesRooted program past m)
    (logs : m.log.enabled = true ∨ ∃ nodes, Quiet nodes m) (factory : TreeFactory σ τ)
    (label : Symbol) {mark : LogMark} (pops : m.Pops (.tree mark)) :
    ∃ origin since, PushedBy program Op.opensTree past (m.frames.size - 1) origin ∧
      Emits factory origin.machine.log.intents m.log label m.nodes since
        (m.log.commit factory mark label m.nodes).1 := by
  obtain ⟨origin, pushed, same⟩ := rooted.trees _ _ mark pops.found rfl
  obtain ⟨free, layout⟩ := held.layout
  have marks : TreeLog.MarksLive live mark :=
    held.marks mark (mem_treeMark (List.mem_of_getElem? pops.found))
  have kept : (live.take mark.number).map Prod.snd = origin.machine.log.intents := by
    rw [← same, layout.intents_eq, List.map_take]
  rcases logs with enabled | ⟨nodes, quiet⟩
  · obtain ⟨added, free', built, content⟩ :=
      layout.commit marks enabled factory label m.nodes
    refine ⟨origin, (live.drop mark.number).map Prod.snd, pushed, ?_, ?_, ?_⟩
    · rw [layout.intents_eq, ← kept, ← List.map_append, List.take_append_drop]
    · rw [built.intents_eq, List.map_append, kept, content]
    · rw [TreeLog.latestLinked_commit enabled, layout.intentsAfter_eq marks]
  · have none : m.log.intents = [] := by rw [quiet.log]; rfl
    have before : origin.machine.log.intents = [] := by rw [← same, none, List.take_nil]
    have idle : (m.log.commit factory mark label m.nodes).1 = m.log := by
      rw [quiet.log]
      rfl
    refine ⟨origin, [], pushed, ?_, ?_, ?_⟩
    · rw [none, before]
      rfl
    · rw [idle, none, before]
      rfl
    · rw [idle, quiet.log]
      rfl

theorem Execution.settled_before {options : Options} (execution : Execution task options past now)
    (disciplined : ∀ config ∈ past, Disciplined task.program config) {kind : Op InstId → Bool}
    {index : Nat} {origin : Config σ τ} (pushed : PushedBy program kind past index origin) :
    origin.machine.bindings.Settled := by
  obtain ⟨later, earlier, split, _⟩ := pushed
  obtain ⟨live, held⟩ := (execution.before split).held fun config member => by
    apply disciplined
    rw [split]
    exact List.mem_append_right later (List.mem_cons_of_mem origin member)
  exact held.settled

/-- Scopes close exactly. The instruction that closes a scope of the bindings brings back the bindings
and their state as they were before the instruction that pushed its frame. The instruction that closes a
scope of the log leaves the intents that were live before the one that pushed its frame, with the node
built from all that were logged since, or with nothing where there were none; and this node, or none, is
the latest. Whatever else was done in between is undone with the scope. -/
theorem scopes_close_exactly {options : Options} (execution : Execution task options past now)
    (disciplined : ∀ config ∈ past, Disciplined task.program config)
    (found : task.program.inst? now.place = some inst) :
    (∀ mark m₁, inst.op = .bindings .leave →
      now.machine.popAs Frame.bindings? .bindings ⟨now.place, inst.op⟩ = .ok (mark, m₁) →
      ∃ origin m', PushedBy task.program Op.opensScope past m₁.frames.size origin ∧
        now.machine.step task now.place = .goto inst.next m' ∧
        m'.bindings.entries = origin.machine.bindings.entries ∧
        m'.bindings.state = origin.machine.bindings.state) ∧
    ∀ label mark m₁, inst.op = .tree (.emit label) →
      now.machine.popAs Frame.tree? .tree ⟨now.place, inst.op⟩ = .ok (mark, m₁) →
      ∃ origin since m', PushedBy task.program Op.opensTree past m₁.frames.size origin ∧
        now.machine.step task now.place = .goto inst.next m' ∧
        Emits task.factory origin.machine.log.intents now.machine.log label now.machine.nodes since
          m'.log := by
  obtain ⟨live, held⟩ := execution.held disciplined
  have rooted := execution.scopes_rooted disciplined
  obtain ⟨op, next⟩ := inst
  constructor
  · rintro mark m₁ rfl popped
    obtain ⟨frame, pops, reads, rfl⟩ := popAs_ok popped
    obtain ⟨origin, pushed, same⟩ := rooted.closed_table (pops.bindings reads)
    have step : now.machine.step task now.place = .goto next
        (now.machine.drop.withBindings fun bindings => bindings.restore mark) := by
      rw [step_eq found]
      simp only [exec, bindingStep, popped, settle]
    refine ⟨origin, _, ?_, step, Array.toList_inj.mp same, ?_⟩
    · unfold Machine.drop
      rw [Array.size_pop]
      exact pushed
    · have settled := execution.settled_before disciplined pushed
      exact (held.settled.restore mark).state_eq settled same
  · rintro label mark m₁ rfl popped
    obtain ⟨frame, pops, reads, rfl⟩ := popAs_ok popped
    obtain ⟨origin, since, pushed, emits⟩ :=
      held.closed_tree rooted execution.logs_or_quiet task.factory label (pops.tree reads)
    have step : now.machine.step task now.place = .goto next
        { now.machine.drop with
          log := (now.machine.log.commit task.factory mark label now.machine.nodes).1
          nodes := (now.machine.log.commit task.factory mark label now.machine.nodes).2 } := by
      rw [step_eq found]
      simp only [exec, treeStep, popped, settle]
      rfl
    refine ⟨origin, since, _, ?_, step, emits⟩
    unfold Machine.drop
    rw [Array.size_pop]
    exact pushed

/-- Code that opens a scope of the log and one of the bindings by a mask, logs and binds on a branch
that is given up, logs once more, and closes both. -/
def scopedBranch : Program where
  insts := #[⟨.control (.exit false), .exitFail⟩, ⟨.control (.exit true), .exitOk⟩,
    ⟨.tree (.tag ⟨1⟩), ⟨3⟩⟩, ⟨.tree .checkpoint, ⟨4⟩⟩, ⟨.bindings (.mask ⟨1⟩), ⟨5⟩⟩,
    ⟨.control (.alt ⟨8⟩), ⟨6⟩⟩, ⟨.tree (.tag ⟨2⟩), ⟨7⟩⟩, ⟨.control .fail, .exitFail⟩,
    ⟨.tree (.tag ⟨3⟩), ⟨9⟩⟩, ⟨.bindings .leave, ⟨10⟩⟩, ⟨.tree (.emit ⟨4⟩), .exitOk⟩]
  sets := .empty
  literals := .empty
  dispatch := #[]
  memoPoints := #[]
  symbols := .initial
  start := ⟨2⟩

/-- Both scopes are closed exactly, over a branch that was given up in between. -/
theorem scopes_close_exactly_branch :
    let task : Task Unit Tree := ⟨scopedBranch, .ofBytes #[], Tree.factory⟩
    ∃ past now closing opened m' opening since m'', Execution task .initial past now ∧
      Execution task .initial (now :: past) closing ∧
      PushedBy scopedBranch Op.opensScope past 2 opened ∧
      now.machine.step task now.place = .goto ⟨10⟩ m' ∧
      m'.bindings.entries = opened.machine.bindings.entries ∧
      PushedBy scopedBranch Op.opensTree (now :: past) 1 opening ∧
      closing.machine.step task closing.place = .goto .exitOk m'' ∧
      Emits Tree.factory opening.machine.log.intents closing.machine.log ⟨4⟩ () since m''.log := by
  intro task
  let tagged (name : Nat) (m : Machine Unit Tree) := m.logged fun log => log.append (.tag ⟨name⟩)
  let m₀ : Machine Unit Tree := (initial scopedBranch .initial ()).push (.ret .exitOk)
  let m₁ := tagged 1 m₀
  let m₂ := m₁.push (.tree m₁.log.mark)
  let m₃ := (m₂.push (.bindings m₂.bindings.save)).withBindings fun bindings => bindings.mask ⟨1⟩
  let m₄ := m₃.pushChoice ⟨8⟩
  let m₅ := tagged 2 m₄
  let m₆ := m₅.resume 3 ⟨⟨8⟩, 0, m₃.log.mark, m₃.bindings.save, none⟩
  let m₇ := tagged 3 m₆
  let m₈ := m₇.drop.withBindings fun bindings => bindings.restore ⟨0⟩
  have logged : Execution task .initial _ ⟨⟨3⟩, m₁⟩ := .step (.enter ⟨2⟩ ()) rfl
  have marked : Execution task .initial _ ⟨⟨4⟩, m₂⟩ := .step logged rfl
  have masked : Execution task .initial _ ⟨⟨5⟩, m₃⟩ := .step marked rfl
  have chosen : Execution task .initial _ ⟨⟨6⟩, m₄⟩ := .step masked rfl
  have tried : Execution task .initial _ ⟨⟨7⟩, m₅⟩ := .step chosen rfl
  have failed : Execution task .initial _ ⟨⟨8⟩, m₆⟩ := .step tried rfl
  have retried : Execution task .initial
      [⟨⟨8⟩, m₆⟩, ⟨⟨7⟩, m₅⟩, ⟨⟨6⟩, m₄⟩, ⟨⟨5⟩, m₃⟩, ⟨⟨4⟩, m₂⟩, ⟨⟨3⟩, m₁⟩, ⟨⟨2⟩, m₀⟩] ⟨⟨9⟩, m₇⟩ :=
    .step failed rfl
  have left : Execution task .initial _ ⟨⟨10⟩, m₈⟩ := .step retried rfl
  have disciplined : ∀ config ∈ ([⟨⟨9⟩, m₇⟩, ⟨⟨8⟩, m₆⟩, ⟨⟨7⟩, m₅⟩, ⟨⟨6⟩, m₄⟩, ⟨⟨5⟩, m₃⟩, ⟨⟨4⟩, m₂⟩,
      ⟨⟨3⟩, m₁⟩, ⟨⟨2⟩, m₀⟩] : List (Config Unit Tree)), Disciplined scopedBranch config := by
    simp only [List.forall_mem_cons]
    exact ⟨trivial, trivial, trivial, trivial, trivial, trivial, trivial, trivial,
      fun config member => by cases member⟩
  obtain ⟨opened, m', pushed, step, entries, _⟩ :=
    (scopes_close_exactly retried (fun config member => disciplined config
      (List.mem_cons_of_mem _ member)) rfl).1 ⟨0⟩ m₇.drop rfl rfl
  obtain ⟨opening, since, m'', pushed', step', emits⟩ :=
    (scopes_close_exactly left disciplined rfl).2 ⟨4⟩ m₂.log.mark m₈.drop rfl rfl
  exact ⟨_, _, _, opened, m', opening, since, m'', retried, left, pushed, step, entries, pushed', step',
    emits⟩

end Machine

end Packrat
