import ConcurrencyCourse.Interleaving
import Mathlib.Logic.Function.Basic

/-!
The x86-TSO machine: one memory, and between each thread and the memory a FIFO
buffer of the thread's own stores. A load takes the newest buffered store of its
own thread to the cell if there is one and reads memory otherwise, the oldest
buffered store may reach memory at any time, and the locked instructions need an
empty buffer. Threads are arbitrary programs over its instructions. Beside it
stands the machine of the same programs on one memory without buffers.
-/

namespace ConcurrencyCourse.StoreBuffer

open Interleaving

inductive Instruction (Cell Value : Type*) where
  | load (cell : Cell) (value : Value)
  | store (cell : Cell) (value : Value)
  | exchange (cell : Cell) (old new : Value)
  | fence

/-- A step of a thread's program, or its oldest buffered store reaching memory. -/
inductive Act (Label Cell Value : Type*) where
  | executes (label : Label)
  | flush (cell : Cell) (value : Value)

structure State (Thread Cell Value Control : Type*) where
  memory : Cell → Value
  buffer : Thread → List (Cell × Value)
  control : Thread → Control

structure Shared (Thread Cell Value Control : Type*) where
  memory : Cell → Value
  control : Thread → Control

/-- The threads' programs: the instruction behind each label, and where a thread
stands after it if it may execute it. -/
structure Program (Thread Control Label Cell Value : Type*) where
  code : Label → Instruction Cell Value
  goes : Thread → Control → Label → Option Control

variable {Thread Cell Value Control Label : Type*}

def init (memory : Cell → Value) (control : Thread → Control) :
    State Thread Cell Value Control :=
  { memory, buffer := fun _ => [], control }

variable [DecidableEq Cell]

/-- The newest buffered store to a cell; the oldest store is the head. -/
def newest (cell : Cell) : List (Cell × Value) → Option Value
  | [] => none
  | (written, value) :: newer =>
      (newest cell newer).or (if written = cell then some value else none)

def drained (memory : Cell → Value) : List (Cell × Value) → Cell → Value
  | [] => memory
  | (cell, value) :: newer => drained (Function.update memory cell value) newer

@[simp] theorem drained_nil (memory : Cell → Value) : drained memory [] = memory := rfl

@[simp] theorem drained_cons (memory : Cell → Value) (cell : Cell) (value : Value)
    (newer : List (Cell × Value)) : drained memory ((cell, value) :: newer) =
      drained (Function.update memory cell value) newer := rfl

theorem drained_append (memory : Cell → Value) (older newer : List (Cell × Value)) :
    drained memory (older ++ newer) = drained (drained memory older) newer := by
  induction older generalizing memory with
  | nil => rfl
  | cons entry older ih => exact ih _

theorem newest_getD (memory : Cell → Value) (entries : List (Cell × Value)) (cell : Cell) :
    (newest cell entries).getD (memory cell) = drained memory entries cell := by
  induction entries generalizing memory with
  | nil => rfl
  | cons entry newer ih =>
      obtain ⟨written, value⟩ := entry
      rw [drained_cons, ← ih, newest]
      cases later : newest cell newer with
      -- A newer store to the cell hides this one.
      | some seen => simp
      | none =>
          by_cases same : written = cell
          · simp [same]
          · simp [same, Function.update_of_ne (Ne.symm same)]

theorem newest_mem {cell : Cell} {value : Value} {entries : List (Cell × Value)}
    (found : newest cell entries = some value) : (cell, value) ∈ entries := by
  induction entries with
  | nil => cases found
  | cons entry newer ih =>
      obtain ⟨target, written⟩ := entry
      rw [newest] at found
      cases later : newest cell newer with
      | some seen =>
          rw [later, Option.some_or] at found
          cases found
          exact List.mem_cons_of_mem _ (ih later)
      | none =>
          rw [later, Option.none_or] at found
          split at found
          · rename_i same
            cases found
            simp [same]
          · cases found

def State.sees (s : State Thread Cell Value Control) (t : Thread) (cell : Cell) : Value :=
  (newest cell (s.buffer t)).getD (s.memory cell)

theorem State.sees_eq_drained (s : State Thread Cell Value Control) (t : Thread) (cell : Cell) :
    s.sees t cell = drained s.memory (s.buffer t) cell :=
  newest_getD s.memory (s.buffer t) cell

variable [DecidableEq Value] [DecidableEq Thread]

def State.executes (s : State Thread Cell Value Control) (t : Thread) :
    Instruction Cell Value → Option (State Thread Cell Value Control)
  | .load cell value => guarded (s.sees t cell = value) s
  | .store cell value => some
      { s with buffer := Function.update s.buffer t (s.buffer t ++ [(cell, value)]) }
  | .exchange cell old new => guarded (s.buffer t = [] ∧ s.memory cell = old)
      { s with memory := Function.update s.memory cell new }
  | .fence => guarded (s.buffer t = []) s

def step (program : Program Thread Control Label Cell Value)
    (s : State Thread Cell Value Control) :
    Thread × Act Label Cell Value → Option (State Thread Cell Value Control)
  | (t, .executes label) => (program.goes t (s.control t) label).bind fun next =>
      (s.executes t (program.code label)).map fun after =>
        { after with control := Function.update s.control t next }
  | (t, .flush cell value) => guarded ((s.buffer t).head? = some (cell, value))
      { s with
        memory := Function.update s.memory cell value
        buffer := Function.update s.buffer t (s.buffer t).tail }

def Shared.executes (s : Shared Thread Cell Value Control) :
    Instruction Cell Value → Option (Shared Thread Cell Value Control)
  | .load cell value => guarded (s.memory cell = value) s
  | .store cell value => some { s with memory := Function.update s.memory cell value }
  | .exchange cell old new => guarded (s.memory cell = old)
      { s with memory := Function.update s.memory cell new }
  | .fence => some s

def sharedStep (program : Program Thread Control Label Cell Value)
    (s : Shared Thread Cell Value Control) :
    Thread × Label → Option (Shared Thread Cell Value Control)
  | (t, label) => (program.goes t (s.control t) label).bind fun next =>
      (s.executes (program.code label)).map fun after =>
        { after with control := Function.update s.control t next }

section Steps
variable {program : Program Thread Control Label Cell Value}
  {s after : State Thread Cell Value Control} {t : Thread} {label : Label}

theorem step_executes : step program s (t, .executes label) = some after ↔
    ∃ next middle, program.goes t (s.control t) label = some next ∧
      s.executes t (program.code label) = some middle ∧
      after = { middle with control := Function.update s.control t next } := by
  simp only [step, Option.bind_eq_some_iff, Option.map_eq_some_iff, @eq_comm _ after]
  constructor
  · rintro ⟨next, offered, middle, done, same⟩
    exact ⟨next, middle, offered, done, same⟩
  · rintro ⟨next, middle, offered, done, same⟩
    exact ⟨next, offered, middle, done, same⟩

theorem step_flush {cell : Cell} {value : Value} :
    step program s (t, .flush cell value) = some after ↔
      ∃ newer, s.buffer t = (cell, value) :: newer ∧ after =
        { s with
          memory := Function.update s.memory cell value
          buffer := Function.update s.buffer t newer } := by
  simp only [step, guarded_eq_some]
  constructor
  · rintro ⟨oldest, rfl⟩
    cases waiting : s.buffer t with
    | nil => simp [waiting] at oldest
    | cons entry newer =>
        simp only [waiting, List.head?_cons, Option.some.injEq] at oldest
        exact ⟨newer, by rw [oldest], rfl⟩
  · rintro ⟨newer, waiting, rfl⟩
    simp [waiting]

theorem sharedStep_eq_some {shared later : Shared Thread Cell Value Control} :
    sharedStep program shared (t, label) = some later ↔
      ∃ next middle, program.goes t (shared.control t) label = some next ∧
        shared.executes (program.code label) = some middle ∧
        later = { middle with control := Function.update shared.control t next } := by
  simp only [sharedStep, Option.bind_eq_some_iff, Option.map_eq_some_iff, @eq_comm _ later]
  constructor
  · rintro ⟨next, offered, middle, done, same⟩
    exact ⟨next, middle, offered, done, same⟩
  · rintro ⟨next, middle, offered, done, same⟩
    exact ⟨next, offered, middle, done, same⟩

theorem sharedStep_others {shared later : Shared Thread Cell Value Control} {u : Thread}
    (taken : sharedStep program shared (t, label) = some later) (other : u ≠ t) :
    later.control u = shared.control u := by
  obtain ⟨next, middle, -, -, rfl⟩ := sharedStep_eq_some.mp taken
  exact Function.update_of_ne other _ _

end Steps

def performed (t : Thread) : Thread × Act Label Cell Value → Option Label
  | (u, .executes label) => if u = t then some label else none
  | (_, .flush _ _) => none

def ofThread (t : Thread) : Thread × Label → Option Label
  | (u, label) => if u = t then some label else none

theorem ofThread_self (t : Thread) (labels : List Label) :
    (labels.map fun label => (t, label)).filterMap (ofThread t) = labels := by
  simp [List.filterMap_map, ofThread, Function.comp_def]

theorem ofThread_other {t u : Thread} (other : t ≠ u) (labels : List Label) :
    (labels.map fun label => (t, label)).filterMap (ofThread u) = [] := by
  simp [List.filterMap_map, ofThread, Function.comp_def, other]

def Instruction.stored : Instruction Cell Value → Option (Cell × Value)
  | .store cell value => some (cell, value)
  | _ => none

def issued (program : Program Thread Control Label Cell Value) (t : Thread) :
    Thread × Act Label Cell Value → Option (Cell × Value)
  | (u, .executes label) => if u = t then (program.code label).stored else none
  | (_, .flush _ _) => none

def flushed (t : Thread) : Thread × Act Label Cell Value → Option (Cell × Value)
  | (u, .flush cell value) => if u = t then some (cell, value) else none
  | (_, .executes _) => none

def written (program : Program Thread Control Label Cell Value) (cell : Cell) :
    Thread × Act Label Cell Value → Option Value
  | (_, .executes label) => match program.code label with
      | .exchange target _ new => if target = cell then some new else none
      | _ => none
  | (_, .flush target value) => if target = cell then some value else none

section Orders
variable {program : Program Thread Control Label Cell Value}
  {s after : State Thread Cell Value Control} {memory : Cell → Value}
  {control : Thread → Control} {trace : List (Thread × Act Label Cell Value)}
  {allowed : State Thread Cell Value Control → Thread × Act Label Cell Value → Prop}

theorem issued_step {t u : Thread} {act : Act Label Cell Value}
    (taken : step program s (u, act) = some after) :
    s.buffer t ++ (issued program t (u, act)).toList =
      (flushed t (u, act)).toList ++ after.buffer t := by
  cases act with
  | executes label =>
      obtain ⟨next, middle, -, done, rfl⟩ := step_executes.mp taken
      cases code : program.code label with
      | load cell value =>
          rw [code] at done
          obtain ⟨-, rfl⟩ := guarded_eq_some.mp done
          simp [issued, flushed, code, Instruction.stored]
      -- Only a store of `t` itself lengthens its buffer, and only at the newer end.
      | store cell value =>
          rw [code] at done
          cases done
          by_cases self : t = u
          · subst self
            simp [issued, flushed, code, Instruction.stored]
          · simp [issued, flushed, self, Ne.symm self]
      | exchange cell old new =>
          rw [code] at done
          obtain ⟨-, rfl⟩ := guarded_eq_some.mp done
          simp [issued, flushed, code, Instruction.stored]
      | fence =>
          rw [code] at done
          obtain ⟨-, rfl⟩ := guarded_eq_some.mp done
          simp [issued, flushed, code, Instruction.stored]
  | flush cell value =>
      obtain ⟨newer, waiting, rfl⟩ := step_flush.mp taken
      by_cases self : t = u
      · subst self
        simp [issued, flushed, waiting]
      · simp [issued, flushed, self, Ne.symm self]

/-- The FIFO law: a thread's stores reach memory in the order in which it issued
them, and the buffer holds those that have not yet. -/
theorem issued_eq (t : Thread)
    (reached : Reaches (step program) allowed (init memory control) trace s) :
    trace.filterMap (issued program t) = trace.filterMap (flushed t) ++ s.buffer t := by
  induction reached with
  | start => rfl
  | next label _ _ taken ih =>
      rw [filterMap_snoc, filterMap_snoc, ih, List.append_assoc, List.append_assoc,
        issued_step taken]

theorem memory_step {cell : Cell} {label : Thread × Act Label Cell Value}
    (taken : step program s label = some after) :
    after.memory cell = (written program cell label).getD (s.memory cell) := by
  obtain ⟨u, act⟩ := label
  cases act with
  | executes label =>
      obtain ⟨next, middle, -, done, rfl⟩ := step_executes.mp taken
      cases code : program.code label with
      | load target value =>
          rw [code] at done
          obtain ⟨-, rfl⟩ := guarded_eq_some.mp done
          simp [written, code]
      -- A store goes to the buffer; memory sees it at the flush.
      | store target value =>
          rw [code] at done
          cases done
          simp [written, code]
      | exchange target old new =>
          rw [code] at done
          obtain ⟨-, rfl⟩ := guarded_eq_some.mp done
          by_cases same : target = cell
          · simp [written, code, same]
          · simp [written, code, same, Function.update_of_ne (Ne.symm same)]
      | fence =>
          rw [code] at done
          obtain ⟨-, rfl⟩ := guarded_eq_some.mp done
          simp [written, code]
  | flush target value =>
      obtain ⟨newer, -, rfl⟩ := step_flush.mp taken
      by_cases same : target = cell
      · simp [written, same]
      · simp [written, same, Function.update_of_ne (Ne.symm same)]

theorem memory_eq (cell : Cell)
    (reached : Reaches (step program) allowed (init memory control) trace s) :
    s.memory cell = ((trace.filterMap (written program cell)).getLast?).getD (memory cell) := by
  induction reached with
  | start => rfl
  | next label _ _ taken ih =>
      rw [memory_step taken, filterMap_snoc, ih]
      cases written program cell label <;> simp

end Orders

end ConcurrencyCourse.StoreBuffer
