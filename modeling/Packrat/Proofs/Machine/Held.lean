/-
The invariant behind backtracking. The frame stack, the tree log and the bindings are undone by
three mechanisms of their own; what ties them together is that the marks on the stack only grow
from the bottom to the top, and that all that was logged or bound up to a mark is still there while
the mark is on the stack. Every edit keeps this.
-/

import Packrat.Proofs.Bindings.Settled
import Packrat.Proofs.Machine.ChoiceChain
import Packrat.Proofs.Tree.Layout

namespace Packrat

/-! ### Marks on the stack -/

def Frame.treeMark? : Frame → Option LogMark
  | .choice point => some point.tree
  | .tree mark => some mark
  | _ => none

def Frame.bindingMark? : Frame → Option BindingMark
  | .choice point => some point.bindings
  | .bindings mark => some mark
  | _ => none

/-- The marks grow from the bottom of a stack to its top, and none lies above a height. -/
structure Ascends {α : Type} (read : Frame → Option α) (height : α → Nat) (limit : Nat)
    (frames : List Frame) : Prop where
  order : (frames.filterMap read).Pairwise fun low high => height low ≤ height high
  bound : ∀ mark ∈ frames.filterMap read, height mark ≤ limit

namespace Ascends

variable {α : Type} {read : Frame → Option α} {height : α → Nat} {limit limit' index : Nat}
  {frames : List Frame} {frame : Frame} {mark : α}

theorem filterMap_take (read : Frame → Option α) (frames : List Frame) (index : Nat) :
    (frames.take index).filterMap read <+: frames.filterMap read := by
  conv_rhs => rw [← List.take_append_drop index frames, List.filterMap_append]
  exact List.prefix_append _ _

theorem take (ascends : Ascends read height limit frames) (index : Nat)
    (bound : ∀ mark ∈ (frames.take index).filterMap read, height mark ≤ limit') :
    Ascends read height limit' (frames.take index) :=
  ⟨ascends.order.sublist (filterMap_take read frames index).sublist, bound⟩

theorem part (ascends : Ascends read height limit frames) (index : Nat) :
    Ascends read height limit (frames.take index) :=
  ascends.take index fun mark member =>
    ascends.bound mark ((filterMap_take read frames index).subset member)

theorem raise (ascends : Ascends read height limit frames) (higher : limit ≤ limit') :
    Ascends read height limit' frames :=
  ⟨ascends.order, fun mark member => Nat.le_trans (ascends.bound mark member) higher⟩

/-- What lies below a marked frame lies below its mark. -/
theorem below (ascends : Ascends read height limit frames) (found : frames[index]? = some frame)
    (marked : read frame = some mark) : Ascends read height (height mark) (frames.take index) := by
  refine ascends.take index fun other member => ?_
  have within := (List.getElem?_eq_some_iff.mp found).1
  have split : frames = frames.take index ++ frame :: frames.drop (index + 1) := by
    conv_lhs => rw [← List.take_append_drop index frames, List.drop_eq_getElem_cons within,
      (List.getElem?_eq_some_iff.mp found).2]
  have order := ascends.order
  rw [split, List.filterMap_append, List.filterMap_cons, marked] at order
  exact (List.pairwise_append.mp order).2.2 other member mark List.mem_cons_self

/-- A frame whose mark, if it has one, lies at the limit can be pushed. -/
theorem concat (ascends : Ascends read height limit frames)
    (top : ∀ mark, read frame = some mark → height mark = limit) :
    Ascends read height limit (frames ++ [frame]) := by
  constructor
  · rw [List.filterMap_append]
    refine List.pairwise_append.mpr ⟨ascends.order, ?_, fun low member mark pushed => ?_⟩
    · cases marked : read frame with
      | none => simp only [List.filterMap_cons, marked, List.filterMap_nil, List.Pairwise.nil]
      | some mark =>
          simp only [List.filterMap_cons, marked, List.filterMap_nil, List.pairwise_singleton]
    · obtain ⟨other, single, marked⟩ := List.mem_filterMap.mp pushed
      rw [List.mem_singleton.mp single] at marked
      rw [top mark marked]
      exact ascends.bound low member
  · intro mark member
    rw [List.filterMap_append, List.mem_append] at member
    rcases member with below | pushed
    · exact ascends.bound mark below
    · obtain ⟨other, single, marked⟩ := List.mem_filterMap.mp pushed
      rw [List.mem_singleton.mp single] at marked
      exact Nat.le_of_eq (top mark marked)

end Ascends

namespace Machine

variable {σ τ : Type}

/-! ### Situations -/

structure Situation (τ : Type) where
  pos : Nat
  frames : List Frame
  catchIndex : Option Nat
  intents : List (Intent τ)
  bindings : List Binding
  state : Nat

def situation (m : Machine σ τ) : Situation τ :=
  ⟨m.pos, m.frames.toList, m.catchIndex, m.log.intents, m.bindings.entries.toList, m.bindings.state⟩

def situationBelow (m : Machine σ τ) (index : Nat) : Situation τ :=
  ⟨m.pos, m.frames.toList.take index, lastChoice (m.frames.toList.take index), m.log.intents,
    m.bindings.entries.toList, m.bindings.state⟩

/-- The instruction that is executed next sets the choice point at a place: it pushes the choice
point there, or it is a guard or the check of a repetition that renews it. -/
inductive Sets (program : Program) (now : Config σ τ) : (index : Nat) → Prop
  | alt {failure next : InstId}
      (found : program.inst? now.place = some ⟨.control (.alt failure), next⟩) :
      Sets program now now.machine.frames.size
  | renew {op : ControlOp InstId} {next : InstId} {index : Nat} {point : ChoicePoint}
      (checks : op = .guard ∨ op = .step)
      (found : program.inst? now.place = some ⟨.control op, next⟩)
      (caught : now.machine.catchIndex = some index)
      (choice : now.machine.frames[index]? = some (.choice point))
      (moved : point.pos ≠ now.machine.pos) : Sets program now index

def Origin (program : Program) (past : List (Config σ τ)) (index : Nat) (origin : Config σ τ) :
    Prop :=
  ∃ later earlier, past = later ++ origin :: earlier ∧ Sets program origin index ∧
    ∀ other ∈ later, ¬ Sets program other index

theorem Origin.keep {program : Program} {past : List (Config σ τ)} {index : Nat}
    {origin config : Config σ τ} (set : Origin program past index origin)
    (other : ¬ Sets program config index) : Origin program (config :: past) index origin := by
  obtain ⟨later, earlier, split, sets, last⟩ := set
  refine ⟨config :: later, earlier, by rw [split]; rfl, sets, fun between member => ?_⟩
  rcases List.mem_cons.mp member with rfl | member
  · exact other
  · exact last between member

/-- A guard or the check of a repetition finds the innermost choice point on top of the stack. -/
def Disciplined (program : Program) (now : Config σ τ) : Prop :=
  match program.inst? now.place, now.machine.catchIndex with
  | some ⟨.control .guard, _⟩, some index => index + 1 = now.machine.frames.size
  | some ⟨.control .step, _⟩, some index => index + 1 = now.machine.frames.size
  | _, _ => True

theorem Disciplined.top {program : Program} {now : Config σ τ}
    (disciplined : Disciplined program now) {op : ControlOp InstId} {next : InstId} {index : Nat}
    (checks : op = .guard ∨ op = .step)
    (found : program.inst? now.place = some ⟨.control op, next⟩)
    (caught : now.machine.catchIndex = some index) : index + 1 = now.machine.frames.size := by
  unfold Disciplined at disciplined
  rw [found, caught] at disciplined
  rcases checks with rfl | rfl <;> exact disciplined

/-! ### The invariant -/

/-- What a choice point saved is what there was where it was last set, and is there still. -/
structure Kept (m : Machine σ τ) (live : List (Nat × Intent τ)) (index : Nat) (point : ChoicePoint)
    (origin : Machine σ τ) : Prop where
  pos : point.pos = origin.pos
  frames : m.frames.toList.take index = origin.frames.toList.take index
  intents : (live.take point.tree.number).map Prod.snd = origin.log.intents
  bindings : m.bindings.entries.toList.take point.bindings.size = origin.bindings.entries.toList
  settled : origin.bindings.Settled

/-- Every mark on the stack is live, marks grow from the bottom to the top, and every choice point
has kept what it saved. -/
structure Held (program : Program) (past : List (Config σ τ)) (m : Machine σ τ)
    (live : List (Nat × Intent τ)) : Prop where
  chained : m.Chained
  layout : ∃ free, m.log.Layout live free
  settled : m.bindings.Settled
  marks : ∀ mark ∈ m.frames.toList.filterMap Frame.treeMark?, TreeLog.MarksLive live mark
  trees : Ascends Frame.treeMark? LogMark.number live.length m.frames.toList
  tables : Ascends Frame.bindingMark? BindingMark.size m.bindings.size m.frames.toList
  origins : ∀ index point, m.frames.toList[index]? = some (.choice point) →
    ∃ origin, Origin program past index origin ∧ Kept m live index point origin.machine

variable {program : Program} {past : List (Config σ τ)} {m m' : Machine σ τ}
  {live added : List (Nat × Intent τ)} {height kept bound : Nat}

/-- Frames are dropped from the top, and of the log and of the bindings nothing below the marks of
the frames that are left. -/
theorem Held.retreat (held : Held program past m live) (chained : m'.Chained)
    (frames : m'.frames.toList = m.frames.toList.take height)
    (layout : ∃ free, m'.log.Layout (live.take kept ++ added) free)
    (settled : m'.bindings.Settled) {more : List Binding}
    (entries : m'.bindings.entries.toList = m.bindings.entries.toList.take bound ++ more)
    (trees : Ascends Frame.treeMark? LogMark.number kept (m.frames.toList.take height))
    (tables : Ascends Frame.bindingMark? BindingMark.size bound (m.frames.toList.take height)) :
    Held program past m' (live.take kept ++ added) := by
  have lower : ∀ mark ∈ (m.frames.toList.take height).filterMap Frame.treeMark?,
      TreeLog.MarksLive live mark := fun mark member =>
    held.marks mark ((Ascends.filterMap_take _ _ _).subset member)
  have size : m'.bindings.size = min bound m.bindings.size + more.length := by
    unfold Bindings.size
    rw [← Array.length_toList, entries, List.length_append, List.length_take, Array.length_toList]
  refine ⟨chained, layout, settled, fun mark member => ?_, ?_, ?_, fun index point found => ?_⟩
  · rw [frames] at member
    exact (lower mark member).keep (trees.bound mark member) added
  · rw [frames]
    refine ⟨trees.order, fun mark member => ?_⟩
    have below := trees.bound mark member
    have within := (lower mark member).number_le
    rw [List.length_append, List.length_take]
    omega
  · rw [frames]
    refine ⟨tables.order, fun mark member => ?_⟩
    have below := tables.bound mark member
    have within := held.tables.bound mark ((Ascends.filterMap_take _ _ _).subset member)
    omega
  · rw [frames] at found
    have under : index < height := by
      have length := (List.getElem?_eq_some_iff.mp found).1
      rw [List.length_take] at length
      omega
    have tree_member : point.tree ∈ (m.frames.toList.take height).filterMap Frame.treeMark? :=
      List.mem_filterMap.mpr ⟨_, List.mem_of_getElem? found, rfl⟩
    have table_member :
        point.bindings ∈ (m.frames.toList.take height).filterMap Frame.bindingMark? :=
      List.mem_filterMap.mpr ⟨_, List.mem_of_getElem? found, rfl⟩
    have table_below := tables.bound _ table_member
    have table_within := held.tables.bound _ ((Ascends.filterMap_take _ _ _).subset table_member)
    rw [List.getElem?_take_of_lt under] at found
    obtain ⟨origin, set, same⟩ := held.origins index point found
    refine ⟨origin, set, same.pos, ?_, ?_, ?_, same.settled⟩
    · rw [frames, List.take_take, Nat.min_eq_left (Nat.le_of_lt under)]
      exact same.frames
    · rw [(lower _ tree_member).take_keep (trees.bound _ tree_member) added]
      exact same.intents
    · rw [entries, List.take_append_of_le_length, List.take_take, Nat.min_eq_left table_below]
      · exact same.bindings
      · rw [List.length_take, Array.length_toList]
        exact Nat.le_min.mpr ⟨table_below, table_within⟩

/-- The log and the bindings stay, and frames are dropped at most. -/
theorem Held.lower (held : Held program past m live) (chained : m'.Chained)
    (frames : m'.frames.toList = m.frames.toList.take height) (log : m'.log = m.log)
    (bindings : m'.bindings = m.bindings) : Held program past m' live := by
  have all : live.take live.length ++ [] = live := by rw [List.take_length, List.append_nil]
  have entries : m'.bindings.entries.toList =
      m.bindings.entries.toList.take m.bindings.size ++ [] := by
    rw [bindings, List.append_nil, m.bindings.take_size]
  have layout : ∃ free, m'.log.Layout (live.take live.length ++ []) free := by
    rw [all, log]
    exact held.layout
  have settled : m'.bindings.Settled := by
    rw [bindings]
    exact held.settled
  have kept := held.retreat chained frames layout settled entries (held.trees.part height)
    (held.tables.part height)
  rw [all] at kept
  exact kept

/-- The stack stays, and the log and the bindings grow at most. -/
theorem Held.grow (held : Held program past m live) (chained : m'.Chained)
    (frames : m'.frames = m.frames) (layout : ∃ free, m'.log.Layout (live ++ added) free)
    (settled : m'.bindings.Settled) {more : List Binding}
    (entries : m'.bindings.entries.toList = m.bindings.entries.toList ++ more) :
    Held program past m' (live ++ added) := by
  have all : live.take live.length = live := List.take_length
  have frames' : m'.frames.toList = m.frames.toList.take m.frames.toList.length := by
    rw [frames, List.take_length]
  have entries' : m'.bindings.entries.toList =
      m.bindings.entries.toList.take m.bindings.size ++ more := by
    rw [entries, m.bindings.take_size]
  rw [← all] at layout ⊢
  exact held.retreat chained frames' layout settled entries' (held.trees.part _)
    (held.tables.part _)

/-- A frame is pushed, whose marks are those of the present state. -/
theorem Held.concat (held : Held program past m live) {frame : Frame} (chained : m'.Chained)
    (frames : m'.frames.toList = m.frames.toList ++ [frame]) (log : m'.log = m.log)
    (bindings : m'.bindings = m.bindings)
    (tree : ∀ mark, frame.treeMark? = some mark → mark = m.log.mark)
    (table : ∀ mark, frame.bindingMark? = some mark → mark = m.bindings.save)
    (origin : ∀ point, frame = .choice point →
      ∃ origin, Origin program past m.frames.size origin ∧
        Kept m live m.frames.size point origin.machine) :
    Held program past m' live := by
  obtain ⟨free, layout⟩ := held.layout
  refine ⟨chained, by rw [log]; exact held.layout, by rw [bindings]; exact held.settled,
    fun mark member => ?_, ?_, ?_, fun index point found => ?_⟩
  · rw [frames, List.filterMap_append, List.mem_append] at member
    rcases member with below | pushed
    · exact held.marks mark below
    · obtain ⟨other, single, marked⟩ := List.mem_filterMap.mp pushed
      rw [List.mem_singleton.mp single] at marked
      rw [tree mark marked]
      exact layout.mark_live
  · rw [frames]
    refine held.trees.concat fun mark marked => ?_
    rw [tree mark marked]
    exact layout.length_eq
  · rw [frames, bindings]
    refine held.tables.concat fun mark marked => ?_
    rw [table mark marked]
    rfl
  · rw [frames] at found
    have stays {index : Nat} {point : ChoicePoint} {state : Machine σ τ}
        (within : index ≤ m.frames.size) (same : Kept m live index point state) :
        Kept m' live index point state := by
      refine ⟨same.pos, ?_, same.intents, ?_, same.settled⟩
      · rw [frames, List.take_append_of_le_length (by rw [Array.length_toList]; exact within)]
        exact same.frames
      · rw [bindings]
        exact same.bindings
    rcases Nat.lt_or_ge index m.frames.toList.length with below | beyond
    · rw [List.getElem?_append_left below] at found
      obtain ⟨origin, set, same⟩ := held.origins index point found
      rw [Array.length_toList] at below
      exact ⟨origin, set, stays (Nat.le_of_lt below) same⟩
    · rw [List.getElem?_append_right beyond, List.getElem?_singleton] at found
      split at found
      · next first =>
          cases found
          have top : index = m.frames.size := by
            rw [Array.length_toList] at beyond first
            omega
          subst top
          obtain ⟨origin, set, same⟩ := origin point rfl
          exact ⟨origin, set, stays (Nat.le_refl _) same⟩
      · cases found

/-- A binding is pushed. -/
theorem Held.bind (held : Held program past m live) (table : Symbol) (value : Option Bytes)
    (unchanged : Bool)
    (chained : (m.withBindings fun bindings => bindings.push table value unchanged).Chained) :
    Held program past (m.withBindings fun bindings => bindings.push table value unchanged) live := by
  obtain ⟨free, layout⟩ := held.layout
  obtain ⟨entry, entries⟩ := Bindings.entries_push m.bindings table value unchanged
  have all : live ++ [] = live := List.append_nil live
  have grown := held.grow chained rfl ⟨free, by rw [all]; exact layout⟩
    (Bindings.settled_push _ _ _ _) entries
  rw [all] at grown
  exact grown

/-! ### Every edit keeps it -/

theorem Pops.found {frame : Frame} (pops : m.Pops frame) :
    m.frames.toList[m.frames.size - 1]? = some frame := by
  have top := pops.top
  rw [Array.back?_eq_getElem?] at top
  rw [Array.getElem?_toList]
  exact top

theorem drop_frames (m : Machine σ τ) :
    m.drop.frames.toList = m.frames.toList.take (m.frames.size - 1) := by
  unfold Machine.drop
  rw [Array.toList_pop, List.dropLast_eq_take, Array.length_toList]

theorem Held.edit (held : Held program past m live) (edit : Edit m m') :
    ∃ live', Held program past m' live' := by
  have chained := held.chained.edit edit
  obtain ⟨free, layout⟩ := held.layout
  have unbound : m.bindings.entries.toList = m.bindings.entries.toList ++ [] :=
    (List.append_nil _).symm
  cases edit with
  | keep same =>
      have frames : m'.frames.toList = m.frames.toList.take m.frames.toList.length := by
        rw [List.take_length, same.frames]
      exact ⟨live, held.lower chained frames same.log same.bindings⟩
  | push frame plain =>
      refine ⟨live, held.concat chained Array.toList_push rfl rfl ?_ ?_ ?_⟩
      all_goals intro saved marked; cases frame <;> cases plain <;> cases marked
  | checkpoint =>
      refine ⟨live, held.concat chained Array.toList_push rfl rfl ?_ ?_ ?_⟩
      · intro mark marked
        cases marked
        rfl
      · intro mark marked
        cases marked
      · intro point same
        cases same
  | enter =>
      refine ⟨live, held.concat chained Array.toList_push rfl rfl ?_ ?_ ?_⟩
      · intro mark marked
        cases marked
      · intro mark marked
        cases marked
        rfl
      · intro point same
        cases same
  | drop frame pops => exact ⟨live, held.lower chained (drop_frames m) rfl rfl⟩
  | cut index point innermost found => exact ⟨live, held.lower chained Array.toList_shrink rfl rfl⟩
  | append intent =>
      obtain ⟨added, free', grown, _⟩ := layout.append intent
      exact ⟨live ++ added, held.grow chained rfl ⟨free', grown⟩ held.settled unbound⟩
  | link label child =>
      obtain ⟨added, free', grown, _⟩ := layout.link label child
      exact ⟨live ++ added, held.grow chained rfl ⟨free', grown⟩ held.settled unbound⟩
  | emit factory mark label pops =>
      cases enabled : m.log.enabled with
      | false =>
          refine ⟨live, held.lower chained (drop_frames m) ?_ rfl⟩
          simp only [TreeLog.commit, enabled, Bool.false_eq_true, if_false]
      | true =>
          have member : mark ∈ m.frames.toList.filterMap Frame.treeMark? :=
            List.mem_filterMap.mpr ⟨_, List.mem_of_getElem? pops.found, rfl⟩
          obtain ⟨added, free', grown, _⟩ :=
            layout.commit (held.marks mark member) enabled factory label m.nodes
          have under := held.trees.below pops.found rfl
          have entries : m.bindings.entries.toList =
              m.bindings.entries.toList.take m.bindings.size ++ [] := by
            rw [m.bindings.take_size, List.append_nil]
          exact ⟨live.take mark.number ++ added, held.retreat chained (drop_frames m)
            ⟨free', grown⟩ held.settled entries under (held.tables.part _)⟩
  | leave mark pops =>
      have under := held.tables.below pops.found rfl
      have all : live.take live.length ++ [] = live := by rw [List.take_length, List.append_nil]
      have entries : (m.bindings.restore mark).entries.toList =
          m.bindings.entries.toList.take mark.size ++ [] := by
        rw [Bindings.entries_restore, List.append_nil]
      exact ⟨live.take live.length ++ [], held.retreat chained (drop_frames m)
        ⟨free, by rw [all]; exact layout⟩ (held.settled.restore mark) entries
        (held.trees.part _) under⟩
  | define table value => exact ⟨live, held.bind table (some value) _ chained⟩
  | mask table => exact ⟨live, held.bind table none _ chained⟩

theorem Held.edits (held : Held program past m live) (edits : Edits m m') :
    ∃ live', Held program past m' live' := by
  induction edits with
  | refl => exact ⟨live, held⟩
  | tail _ last ih =>
      obtain ⟨live', held'⟩ := ih
      exact held'.edit last

end Machine

end Packrat
