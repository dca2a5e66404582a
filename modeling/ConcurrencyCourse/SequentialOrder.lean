import ConcurrencyCourse.StoreBuffer

/-!
When a store buffer cannot be noticed. As long as no load overtakes an earlier
store of its own thread to another cell, every run of the buffered machine gives
its loads the values of some interleaving of the same programs on one memory: a
store takes its place when it reaches memory, and the loads that were served
from the buffer follow the store they read.
-/

namespace ConcurrencyCourse.StoreBuffer

open Interleaving

variable {Thread Cell Value Control Label : Type*}

/-- A thread of the shared machine stands where some of its stores and the loads
that read them have still to take effect. From there it performs the labels and
stands where the buffered machine has it. `last` is the store it performed just
before, which the loads read. -/
inductive Behind (program : Program Thread Control Label Cell Value) (t : Thread) :
    Option (Cell × Value) → Control → List (Cell × Value) → List Label → Control → Prop where
  | done {last : Option (Cell × Value)} {here : Control} : Behind program t last here [] [] here
  | load {here next final : Control} {label : Label} {cell : Cell} {value : Value}
      {entries : List (Cell × Value)} {labels : List Label}
      (goes : program.goes t here label = some next) (code : program.code label = .load cell value)
      (rest : Behind program t (some (cell, value)) next entries labels final) :
      Behind program t (some (cell, value)) here entries (label :: labels) final
  | store {last : Option (Cell × Value)} {here next final : Control} {label : Label} {cell : Cell}
      {value : Value} {entries : List (Cell × Value)} {labels : List Label}
      (goes : program.goes t here label = some next) (code : program.code label = .store cell value)
      (rest : Behind program t (some (cell, value)) next entries labels final) :
      Behind program t last here ((cell, value) :: entries) (label :: labels) final

section Behind
variable {program : Program Thread Control Label Cell Value} {t : Thread}
  {last : Option (Cell × Value)} {here next final : Control} {label : Label} {cell : Cell}
  {value : Value} {entries : List (Cell × Value)} {labels : List Label}

theorem Behind.drained (behind : Behind program t none here [] labels final) :
    labels = [] ∧ here = final := by
  cases behind
  exact ⟨rfl, rfl⟩

theorem Behind.caught_up (behind : Behind program t last here entries [] final) :
    here = final := by
  cases behind
  rfl

theorem Behind.issues (behind : Behind program t last here entries labels final)
    (goes : program.goes t final label = some next)
    (code : program.code label = .store cell value) :
    Behind program t last here (entries ++ [(cell, value)]) (labels ++ [label]) next := by
  -- The new store is the youngest: it goes to the far end of what is waiting.
  induction behind with
  | done => exact .store goes code .done
  | load earlier read _ ih => exact .load earlier read (ih goes)
  | store earlier wrote _ ih => exact .store earlier wrote (ih goes)

theorem Behind.reads (behind : Behind program t last here entries labels final)
    (goes : program.goes t final label = some next) (code : program.code label = .load cell value)
    (own : entries.getLast?.or last = some (cell, value)) :
    Behind program t last here entries (labels ++ [label]) next := by
  induction behind with
  -- Nothing left before the load: the store it reads is the last one performed.
  | done =>
      cases own
      exact .load goes code .done
  | load earlier read _ ih => exact .load earlier read (ih goes own)
  | store earlier wrote _ ih =>
      refine .store earlier wrote (ih goes ?_)
      rw [List.getLast?_cons, Option.some_or] at own
      rw [← own]
      cases List.getLast? _ <;> rfl

theorem Behind.done_first [DecidableEq Thread] {controls final : Thread → Control}
    {entries : Thread → List (Cell × Value)} {waiting : Thread → List Label}
    (behind : ∀ t, Behind program t none (controls t) (entries t) (waiting t) (final t))
    (first t : Thread) :
    Behind program t none (Function.update controls first (final first) t)
      (Function.update entries first [] t) (Function.update waiting first [] t) (final t) := by
  by_cases self : t = first
  · subst self
    simpa using .done
  · simpa [self] using behind t

end Behind

variable [DecidableEq Cell]

theorem newest_same {cell : Cell} {entries : List (Cell × Value)}
    (same : ∀ entry ∈ entries, entry.1 = cell) :
    entries.getLast? = (newest cell entries).map fun value => (cell, value) := by
  induction entries with
  | nil => rfl
  | cons entry newer ih =>
      obtain ⟨target, value⟩ := entry
      have here : target = cell := same (target, value) (by simp)
      rw [List.getLast?_cons, ih fun later member => same later (by simp [member]), newest, here]
      cases newest cell newer <;> simp

variable [DecidableEq Value] [DecidableEq Thread]

/-- A load that finds no own store to another cell still buffered, and every other
step: no load overtakes an earlier store of its thread. -/
def NoOvertaking (program : Program Thread Control Label Cell Value)
    (s : State Thread Cell Value Control) : Thread × Act Label Cell Value → Prop
  | (t, .executes label) => match program.code label with
      | .load cell _ => ∀ entry ∈ s.buffer t, entry.1 = cell
      | _ => True
  | (_, .flush _ _) => True

instance (program : Program Thread Control Label Cell Value)
    (s : State Thread Cell Value Control) :
    (label : Thread × Act Label Cell Value) → Decidable (NoOvertaking program s label)
  | (t, .executes label) =>
      match code : program.code label with
      | .load cell _ => decidable_of_iff (∀ entry ∈ s.buffer t, entry.1 = cell)
          (by simp [NoOvertaking, code])
      | .store _ _ => .isTrue (by simp [NoOvertaking, code])
      | .exchange _ _ _ => .isTrue (by simp [NoOvertaking, code])
      | .fence => .isTrue (by simp [NoOvertaking, code])
  | (_, .flush _ _) => .isTrue trivial

section Lagging
variable {program : Program Thread Control Label Cell Value} {t : Thread}
  {last : Option (Cell × Value)} {here next final : Control} {label : Label} {cell : Cell}
  {value : Value} {entries : List (Cell × Value)} {labels : List Label}

theorem sharedStep_load {shared : Shared Thread Cell Value Control}
    (goes : program.goes t (shared.control t) label = some next)
    (code : program.code label = .load cell value) (visible : shared.memory cell = value) :
    ∃ after, sharedStep program shared (t, label) = some after ∧ after.memory = shared.memory ∧
      (∀ u, u ≠ t → after.control u = shared.control u) ∧ after.control t = next := by
  refine ⟨_, sharedStep_eq_some.mpr ⟨next, shared, goes, ?_, rfl⟩, rfl, fun u other => ?_, ?_⟩
  · rw [code]
    simp [Shared.executes, visible]
  · exact Function.update_of_ne other _ _
  · exact Function.update_self _ _ _

theorem sharedStep_store {shared : Shared Thread Cell Value Control}
    (goes : program.goes t (shared.control t) label = some next)
    (code : program.code label = .store cell value) :
    ∃ after, sharedStep program shared (t, label) = some after ∧
      after.memory = Function.update shared.memory cell value ∧
      (∀ u, u ≠ t → after.control u = shared.control u) ∧ after.control t = next := by
  have done : shared.executes (program.code label) =
      some { shared with memory := Function.update shared.memory cell value } := by
    rw [code]
    rfl
  refine ⟨_, sharedStep_eq_some.mpr ⟨next, _, goes, done, rfl⟩, rfl, fun u other => ?_, ?_⟩
  · exact Function.update_of_ne other _ _
  · exact Function.update_self _ _ _

theorem Behind.catches_up {shared : Shared Thread Cell Value Control}
    (behind : Behind program t (some (cell, value)) here entries labels final)
    (visible : shared.memory cell = value) (stands : shared.control t = here) :
    ∃ moves later shared', Reaches (sharedStep program) unrestricted shared
        (moves.map fun label => (t, label)) shared' ∧ labels = moves ++ later ∧
      shared'.memory = shared.memory ∧ (∀ u, u ≠ t → shared'.control u = shared.control u) ∧
      Behind program t none (shared'.control t) entries later final := by
  generalize latest : some (cell, value) = last at behind
  -- After a store the loads up to the next store can be performed, since they read it.
  induction behind generalizing shared with
  | done => exact ⟨[], [], shared, .start, rfl, rfl, fun _ _ => rfl, stands ▸ .done⟩
  | @load here next final label cell' value' entries labels goes code rest ih =>
      obtain ⟨rfl, rfl⟩ : cell = cell' ∧ value = value' := by simpa using latest
      obtain ⟨middle, moved, same, away, stands'⟩ := sharedStep_load (stands ▸ goes) code visible
      obtain ⟨moves, later, shared', ran, split, kept, others, still⟩ :=
        ih (same ▸ visible) stands' rfl
      exact ⟨label :: moves, later, shared', .cons (t, label) trivial moved ran, by simp [split],
        kept.trans same, fun u other => by rw [others u other, away u other], still⟩
  | store goes code rest => exact ⟨[], _, shared, .start, rfl, rfl, fun _ _ => rfl,
      stands ▸ .store goes code rest⟩

theorem Behind.performs {shared : Shared Thread Cell Value Control}
    (behind : Behind program t last here entries labels final)
    (visible : ∀ cell value, last = some (cell, value) → shared.memory cell = value)
    (stands : shared.control t = here) :
    ∃ shared', Reaches (sharedStep program) unrestricted shared
        (labels.map fun label => (t, label)) shared' ∧
      (∀ u, u ≠ t → shared'.control u = shared.control u) ∧ shared'.control t = final := by
  induction behind generalizing shared with
  | done => exact ⟨shared, .start, fun _ _ => rfl, stands⟩
  | @load here next final label cell value entries labels goes code rest ih =>
      obtain ⟨middle, moved, same, away, stands'⟩ :=
        sharedStep_load (stands ▸ goes) code (visible _ _ rfl)
      obtain ⟨shared', ran, others, there⟩ := ih (same ▸ visible) stands'
      exact ⟨shared', .cons (t, label) trivial moved ran,
        fun u other => by rw [others u other, away u other], there⟩
  | @store last here next final label cell value entries labels goes code rest ih =>
      obtain ⟨middle, moved, memory, away, stands'⟩ := sharedStep_store (stands ▸ goes) code
      obtain ⟨shared', ran, others, there⟩ :=
        ih (fun _ _ same => by cases same; rw [memory, Function.update_self]) stands'
      exact ⟨shared', .cons (t, label) trivial moved ran,
        fun u other => by rw [others u other, away u other], there⟩

end Lagging

/-- The shared machine has the buffered machine's memory; each thread of it is
behind by the labels in `waiting`. -/
structure Lags (program : Program Thread Control Label Cell Value)
    (s : State Thread Cell Value Control) (shared : Shared Thread Cell Value Control)
    (waiting : Thread → List Label) : Prop where
  memory : shared.memory = s.memory
  behind : ∀ t, Behind program t none (shared.control t) (s.buffer t) (waiting t) (s.control t)

def Act.labels : Act Label Cell Value → List Label
  | .executes label => [label]
  | .flush _ _ => []

section Simulation
variable {program : Program Thread Control Label Cell Value}
  {s after : State Thread Cell Value Control} {shared : Shared Thread Cell Value Control}
  {waiting : Thread → List Label} {t : Thread}

structure Follows (program : Program Thread Control Label Cell Value)
    (after : State Thread Cell Value Control) (shared : Shared Thread Cell Value Control)
    (waiting : Thread → List Label) (t : Thread) (act : Act Label Cell Value)
    (moves later : List Label) (shared' : Shared Thread Cell Value Control) : Prop where
  ran : Reaches (sharedStep program) unrestricted shared (moves.map fun label => (t, label)) shared'
  lags : Lags program after shared' (Function.update waiting t later)
  order : waiting t ++ act.labels = moves ++ later

theorem Lags.follows {act : Act Label Cell Value} {moves later : List Label}
    {shared' : Shared Thread Cell Value Control} (lags : Lags program s shared waiting)
    (ran : Reaches (sharedStep program) unrestricted shared
      (moves.map fun label => (t, label)) shared')
    (memory : shared'.memory = after.memory)
    (others : ∀ u, u ≠ t → shared'.control u = shared.control u ∧
      after.buffer u = s.buffer u ∧ after.control u = s.control u)
    (own : Behind program t none (shared'.control t) (after.buffer t) later (after.control t))
    (order : waiting t ++ act.labels = moves ++ later) :
    Follows program after shared waiting t act moves later shared' := by
  refine ⟨ran, ⟨memory, fun u => ?_⟩, order⟩
  by_cases self : u = t
  · subst self
    simpa using own
  · obtain ⟨same, buffer, control⟩ := others u self
    simpa [self, same, buffer, control] using lags.behind u

theorem Lags.at_once {label : Label} {next : Control} {middle : State Thread Cell Value Control}
    (lags : Lags program s shared waiting) (empty : s.buffer t = [])
    (goes : program.goes t (s.control t) label = some next)
    (executed : after = { middle with control := Function.update s.control t next })
    (done : shared.executes (program.code label) = some { shared with memory := middle.memory })
    (buffer : middle.buffer = s.buffer) :
    ∃ shared', Follows program after shared waiting t (.executes label) [label] [] shared' := by
  -- With an empty buffer nothing of this thread is waiting.
  have own := lags.behind t
  rw [empty] at own
  obtain ⟨nothing, stands⟩ := own.drained
  have moved : sharedStep program shared (t, label) = some
      { memory := middle.memory, control := Function.update shared.control t next } :=
    sharedStep_eq_some.mpr ⟨next, _, by rw [stands]; exact goes, done, rfl⟩
  refine ⟨_, lags.follows (.cons (t, label) trivial moved .start) (by rw [executed]) ?_ ?_ ?_⟩
  · intro u other
    simp [executed, other, buffer]
  · rw [executed]
    simp only [buffer, empty, Function.update_self]
    exact .done
  · simp [nothing, Act.labels]

/-- A load behind stores of its own thread is of their cell, and waits with them. -/
theorem Lags.reads_own {label : Label} {next : Control} {cell : Cell} {value : Value}
    (lags : Lags program s shared waiting) (ordered : NoOvertaking program s (t, .executes label))
    (busy : s.buffer t ≠ []) (goes : program.goes t (s.control t) label = some next)
    (code : program.code label = .load cell value) (seen : s.sees t cell = value)
    (executed : after = { s with control := Function.update s.control t next }) :
    Follows program after shared waiting t (.executes label) [] (waiting t ++ [label]) shared := by
  have own : ∀ entry ∈ s.buffer t, entry.1 = cell := by
    simpa [NoOvertaking, code] using ordered
  have newest' : (s.buffer t).getLast? = some (cell, value) := by
    have same := newest_same own
    cases found : newest cell (s.buffer t) with
    | none => simp [found, busy] at same
    | some newest' => simpa [State.sees, found, ← seen] using same
  refine lags.follows .start ?_ ?_ ?_ rfl
  · rw [executed, lags.memory]
  · intro u other
    simp [executed, other]
  · rw [executed]
    simpa using (lags.behind t).reads goes code (by simp [newest'])

/-- The oldest store reaches memory, and with it every load that waited for it only. -/
theorem Lags.flush {cell : Cell} {value : Value} (lags : Lags program s shared waiting)
    (taken : step program s (t, .flush cell value) = some after) :
    ∃ moves later shared',
      Follows program after shared waiting t (.flush cell value) moves later shared' := by
  obtain ⟨newer, oldest, executed⟩ := step_flush.mp taken
  have own := lags.behind t
  rw [oldest] at own
  generalize waits : waiting t = labels at own
  generalize stands : shared.control t = here at own
  -- The oldest store is the first label that waits.
  cases own with
  | @store _ _ next _ label _ _ _ labels goes code rest =>
      obtain ⟨middle, moved, stored, away, stands'⟩ := sharedStep_store (stands ▸ goes) code
      obtain ⟨moves, later, shared', ran, split, memory, others, still⟩ :=
        rest.catches_up (by rw [stored, Function.update_self]) stands'
      refine ⟨label :: moves, later, shared',
        lags.follows (.cons (t, label) trivial moved ran) ?_ ?_ ?_ ?_⟩
      · rw [memory, stored, executed, lags.memory]
      · intro u other
        simp [executed, other, others u other, away u other]
      · rw [executed]
        simpa using still
      · simp [waits, Act.labels, split]

theorem Lags.step {act : Act Label Cell Value} (lags : Lags program s shared waiting)
    (ordered : NoOvertaking program s (t, act))
    (taken : step program s (t, act) = some after) :
    ∃ moves later shared', Follows program after shared waiting t act moves later shared' ∧
      ∀ label, act = .executes label → moves = [] ∨
        moves = [label] ∧ s.buffer t = [] ∧ (program.code label).stored = none := by
  cases act with
  | executes label =>
      obtain ⟨next, middle, goes, done, executed⟩ := step_executes.mp taken
      cases code : program.code label with
      | load cell value =>
          rw [code] at done
          obtain ⟨seen, rfl⟩ := guarded_eq_some.mp done
          by_cases empty : s.buffer t = []
          · have visible : shared.memory cell = value := by
              rw [lags.memory, ← seen, State.sees, empty]
              rfl
            obtain ⟨shared', follows⟩ := lags.at_once empty goes executed
              (by simp [code, Shared.executes, visible, ← lags.memory]) rfl
            exact ⟨_, _, shared', follows,
              fun _ same => by
                cases same
                exact Or.inr ⟨rfl, empty, by simp [code, Instruction.stored]⟩⟩
          · exact ⟨_, _, _, lags.reads_own ordered empty goes code seen executed,
              fun _ _ => Or.inl rfl⟩
      -- The shared machine stores when the buffered one flushes.
      | store cell value =>
          rw [code] at done
          cases done
          refine ⟨[], waiting t ++ [label], shared, lags.follows .start ?_ ?_ ?_ rfl,
            fun _ _ => Or.inl rfl⟩
          · rw [executed, lags.memory]
          · intro u other
            simp [executed, other]
          · rw [executed]
            simpa using (lags.behind t).issues goes code
      | exchange cell old new =>
          rw [code] at done
          obtain ⟨⟨empty, found⟩, rfl⟩ := guarded_eq_some.mp done
          have same : shared.executes (program.code label) =
              some { shared with memory := Function.update s.memory cell new } := by
            rw [code]
            simp [Shared.executes, lags.memory, found]
          obtain ⟨shared', follows⟩ := lags.at_once empty goes executed same rfl
          exact ⟨_, _, shared', follows,
              fun _ same => by
                cases same
                exact Or.inr ⟨rfl, empty, by simp [code, Instruction.stored]⟩⟩
      | fence =>
          rw [code] at done
          obtain ⟨empty, rfl⟩ := guarded_eq_some.mp done
          obtain ⟨shared', follows⟩ := lags.at_once empty goes executed
            (by simp [code, Shared.executes, ← lags.memory]) rfl
          exact ⟨_, _, shared', follows,
              fun _ same => by
                cases same
                exact Or.inr ⟨rfl, empty, by simp [code, Instruction.stored]⟩⟩
  | flush cell value =>
      obtain ⟨moves, later, shared', follows⟩ := lags.flush taken
      exact ⟨moves, later, shared', follows, fun _ same => by cases same⟩

theorem Follows.accounts {act : Act Label Cell Value} {moves later : List Label}
    {shared' : Shared Thread Cell Value Control}
    (follows : Follows program after shared waiting t act moves later shared') (u : Thread) :
    waiting u ++ (performed u (t, act)).toList =
      (moves.map fun label => (t, label)).filterMap (ofThread u) ++
        Function.update waiting t later u := by
  by_cases self : t = u
  · subst self
    have same : (performed t (t, act)).toList = act.labels := by
      cases act <;> simp [performed, Act.labels]
    rw [ofThread_self, same, follows.order, Function.update_self]
  · have other : performed u (t, act) = none := by
      cases act <;> simp [performed, self]
    rw [ofThread_other self, other, Function.update_of_ne (Ne.symm self)]
    simp

end Simulation

section Runs
variable {program : Program Thread Control Label Cell Value}
  {s : State Thread Cell Value Control} {memory : Cell → Value} {control : Thread → Control}
  {trace : List (Thread × Act Label Cell Value)}

theorem lags_reaches
    (reached : Reaches (step program) (NoOvertaking program) (init memory control) trace s) :
    ∃ order shared waiting,
      Reaches (sharedStep program) unrestricted { memory, control } order shared ∧
      Lags program s shared waiting ∧
      ∀ t, trace.filterMap (performed t) = order.filterMap (ofThread t) ++ waiting t := by
  induction reached with
  | start => exact ⟨[], _, fun _ => [], .start, ⟨rfl, fun _ => .done⟩, fun _ => rfl⟩
  | next label _ ordered taken ih =>
      obtain ⟨order, shared, waiting, ran, lags, accounts⟩ := ih
      obtain ⟨t, act⟩ := label
      obtain ⟨moves, later, shared', follows, -⟩ := lags.step ordered taken
      refine ⟨_, shared', _, ran.append follows.ran, follows.lags, fun u => ?_⟩
      rw [filterMap_snoc, accounts u, List.append_assoc, follows.accounts u,
        List.filterMap_append, List.append_assoc]

theorem catch_up_all (threads : List Thread) {shared : Shared Thread Cell Value Control}
    {entries : Thread → List (Cell × Value)} {waiting : Thread → List Label}
    {final : Thread → Control}
    (behind : ∀ t, Behind program t none (shared.control t) (entries t) (waiting t) (final t)) :
    ∃ order shared', Reaches (sharedStep program) unrestricted shared order shared' ∧
      ∀ t, (waiting t = [] ∨ t ∈ threads) →
        shared'.control t = final t ∧ order.filterMap (ofThread t) = waiting t := by
  induction threads generalizing shared entries waiting with
  | nil =>
      refine ⟨[], shared, .start, fun t nothing => ?_⟩
      have own := behind t
      rw [nothing.resolve_right List.not_mem_nil] at own ⊢
      exact ⟨own.caught_up, rfl⟩
  -- One thread performs all that it is behind by; the others stay where they are.
  | cons first threads ih =>
      obtain ⟨middle, ran, others, there⟩ := (behind first).performs (by simp) rfl
      have behind' : ∀ t, Behind program t none (middle.control t)
          (Function.update entries first [] t) (Function.update waiting first [] t) (final t) := by
        have stands : middle.control = Function.update shared.control first (final first) :=
          Function.eq_update_iff.mpr ⟨there, others⟩
        rw [stands]
        exact Behind.done_first behind first
      obtain ⟨order, shared', more, done⟩ := ih behind'
      refine ⟨_, shared', ran.append more, fun t listed => ?_⟩
      rw [List.filterMap_append]
      by_cases self : t = first
      · subst self
        obtain ⟨stands, rest⟩ := done t (Or.inl (by simp))
        rw [rest, ofThread_self]
        simpa using stands
      · rw [ofThread_other (Ne.symm self)]
        simpa [self] using done t (by simpa [self] using listed)

/-- Without overtaking loads the store buffers cannot be noticed: some interleaving
of the same programs on one memory has every thread execute the same labels, with
the same values, and leaves every thread where the buffered machine has it. -/
theorem sequentially_consistent
    (reached : Reaches (step program) (NoOvertaking program) (init memory control) trace s) :
    ∃ order shared, Reaches (sharedStep program) unrestricted { memory, control } order shared ∧
      shared.control = s.control ∧
      ∀ t, trace.filterMap (performed t) = order.filterMap (ofThread t) := by
  obtain ⟨order, shared, waiting, ran, lags, accounts⟩ := lags_reaches reached
  obtain ⟨rest, shared', more, done⟩ := catch_up_all (trace.map Prod.fst) lags.behind
  have everyone : ∀ t, shared'.control t = s.control t ∧
      rest.filterMap (ofThread t) = waiting t := by
    intro t
    refine done t ?_
    by_cases ran' : t ∈ trace.map Prod.fst
    · exact Or.inr ran'
    · -- A thread without a step of its own has performed nothing.
      have nothing : trace.filterMap (performed t) = [] := by
        rw [List.filterMap_eq_nil_iff]
        rintro ⟨u, act⟩ member
        have other : u ≠ t := fun same => ran' (List.mem_map.mpr ⟨_, member, same⟩)
        cases act <;> simp [performed, other]
      rw [accounts t] at nothing
      exact Or.inl (List.append_eq_nil_iff.mp nothing).2
  refine ⟨_, shared', ran.append more, funext fun t => (everyone t).1, fun t => ?_⟩
  rw [accounts t, List.filterMap_append, (everyone t).2]

end Runs

end ConcurrencyCourse.StoreBuffer
