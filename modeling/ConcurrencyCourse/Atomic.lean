import ConcurrencyCourse.SequentialOrder

/-!
`stdlike::Atomic` of tasks/mm/atomic: the routines of atomic_ops.S as the
instructions they execute, and the programs that use the cells with the default
order. `AtomicStoreSeqCst` is the same plain `movq` as the other stores, so a
SeqCst load may overtake it; the outcome of tests/stress/store_buffering.cpp is
possible for SeqCst operations too.
-/

namespace ConcurrencyCourse.Atomic

open Interleaving StoreBuffer

inductive MemoryOrder where
  | relaxed
  | release
  | acquire
  | seqCst
  deriving DecidableEq

section Routines
variable {Cell Value : Type}

def atomicLoadRelaxed (cell : Cell) (value : Value) : Instruction Cell Value := .load cell value

def atomicLoadAcquire (cell : Cell) (value : Value) : Instruction Cell Value := .load cell value

def atomicLoadSeqCst (cell : Cell) (value : Value) : Instruction Cell Value := .load cell value

def atomicStoreRelaxed (cell : Cell) (value : Value) : Instruction Cell Value := .store cell value

def atomicStoreRelease (cell : Cell) (value : Value) : Instruction Cell Value := .store cell value

def atomicStoreSeqCst (cell : Cell) (value : Value) : Instruction Cell Value := .store cell value

/-- Two instructions: `old` is what the first one reads and the routine returns. -/
def atomicExchangeSeqCst (cell : Cell) (old new : Value) : List (Instruction Cell Value) :=
  [.load cell old, .store cell new]

/-- `Atomic::Load` that returns `value`; the default branch is undefined behaviour. -/
def load (mo : MemoryOrder) (cell : Cell) (value : Value) : Option (Instruction Cell Value) :=
  match mo with
  | .relaxed => some (atomicLoadRelaxed cell value)
  | .acquire => some (atomicLoadAcquire cell value)
  | .seqCst => some (atomicLoadSeqCst cell value)
  | .release => none

def store (mo : MemoryOrder) (cell : Cell) (value : Value) : Option (Instruction Cell Value) :=
  match mo with
  | .relaxed => some (atomicStoreRelaxed cell value)
  | .release => some (atomicStoreRelease cell value)
  | .seqCst => some (atomicStoreSeqCst cell value)
  | .acquire => none

def exchange (_mo : MemoryOrder) (cell : Cell) (old new : Value) :
    List (Instruction Cell Value) :=
  atomicExchangeSeqCst cell old new

end Routines

inductive Operation (Cell Value : Type) where
  | load (mo : MemoryOrder) (cell : Cell) (value : Value)
  | store (mo : MemoryOrder) (cell : Cell) (value : Value)

def Operation.routine {Cell Value : Type} : Operation Cell Value → Option (Instruction Cell Value)
  | .load mo cell value => Atomic.load mo cell value
  | .store mo cell value => Atomic.store mo cell value

structure Access (Cell Value : Type) where
  operation : Operation Cell Value
  instruction : Instruction Cell Value
  compiled : operation.routine = some instruction

theorem Access.load_instruction {Cell Value : Type} {mo : MemoryOrder} {cell : Cell} {value : Value}
    (access : Access Cell Value) (loads : access.operation = .load mo cell value) :
    access.instruction = .load cell value := by
  obtain ⟨operation, instruction, compiled⟩ := access
  cases loads
  cases mo <;> cases compiled <;> rfl

theorem Access.store_instruction {Cell Value : Type} {mo : MemoryOrder} {cell : Cell}
    {value : Value}
    (access : Access Cell Value) (stores : access.operation = .store mo cell value) :
    access.instruction = .store cell value := by
  obtain ⟨operation, instruction, compiled⟩ := access
  cases stores
  cases mo <;> cases compiled <;> rfl

/-- A call that leaves the order to its default, `MemoryOrder::SeqCst`. -/
inductive Call (Cell Value : Type) where
  | load (cell : Cell) (value : Value)
  | store (cell : Cell) (value : Value)

def Call.access {Cell Value : Type} : Call Cell Value → Access Cell Value
  | .load cell value =>
      { operation := .load .seqCst cell value
        instruction := atomicLoadSeqCst cell value
        compiled := rfl }
  | .store cell value =>
      { operation := .store .seqCst cell value
        instruction := atomicStoreSeqCst cell value
        compiled := rfl }

def program {Thread Control Cell Value : Type}
    (client : Thread → Control → Call Cell Value → Option Control) :
    Program Thread Control (Call Cell Value) Cell Value :=
  { code := fun call => call.access.instruction, goes := client }

/-- The values of a run are those of an interleaving on one memory: every thread
makes the same calls with the same results and ends in the same place. -/
def Explained {Thread Control Cell Value : Type} [DecidableEq Thread] [DecidableEq Cell]
    [DecidableEq Value] (client : Thread → Control → Call Cell Value → Option Control)
    (memory : Cell → Value) (control : Thread → Control)
    (trace : List (Thread × Act (Call Cell Value) Cell Value))
    (s : StoreBuffer.State Thread Cell Value Control) : Prop :=
  ∃ order shared,
    Reaches (sharedStep (program client)) unrestricted { memory, control } order shared ∧
      shared.control = s.control ∧
      ∀ t, trace.filterMap (performed t) = order.filterMap (ofThread t)

inductive Contender where
  | start
  | stored
  | loaded (value : Int64)
  deriving DecidableEq

def storeBuffering (t : Bool) : Contender → Call Bool Int64 → Option Contender
  | .start, .store cell value => guarded (cell = t ∧ value = 1) .stored
  | .stored, .load cell value => guarded (cell = !t) (.loaded value)
  | _, _ => none

/-- On one memory a cell holds 1 from its owner's store on, and whoever loads last
sees the other thread's store. -/
structure Ordered (shared : Shared Bool Bool Int64 Contender) : Prop where
  before : ∀ t, shared.control t = .start → shared.memory t = 0
  after : ∀ t, shared.control t ≠ .start → shared.memory t = 1
  seen : ∀ t, shared.control t = .loaded 0 → shared.control (!t) ≠ .loaded 0

theorem ordered_step (shared later : Shared Bool Bool Int64 Contender)
    (label : Bool × Call Bool Int64) (ordered : Ordered shared)
    (taken : sharedStep (program storeBuffering) shared label = some later) : Ordered later := by
  obtain ⟨t, call⟩ := label
  obtain ⟨next, middle, goes, done, rfl⟩ := sharedStep_eq_some.mp taken
  cases call with
  | store cell value =>
      cases stands : shared.control t with
      | start =>
          obtain ⟨⟨rfl, rfl⟩, rfl⟩ : (cell = t ∧ value = 1) ∧ Contender.stored = next := by
            simpa [program, storeBuffering, stands] using goes
          cases done
          refine ⟨?_, ?_, ?_⟩
          · intro u fresh
            by_cases self : u = cell
            · simp [self] at fresh
            · simpa [self] using ordered.before u (by simpa [self] using fresh)
          · intro u moved
            by_cases self : u = cell
            · simp [self]
            · simpa [self] using ordered.after u (by simpa [self] using moved)
          -- The thread that stores has loaded nothing yet.
          · intro u zero
            by_cases self : u = cell
            · simp [self] at zero
            · have other : (!u) = cell := by
                cases u <;> cases cell <;> simp_all
              simp [other]
      | stored => simp [program, storeBuffering, stands] at goes
      | loaded value => simp [program, storeBuffering, stands] at goes
  | load cell value =>
      cases stands : shared.control t with
      | start => simp [program, storeBuffering, stands] at goes
      | stored =>
          obtain ⟨rfl, rfl⟩ : cell = !t ∧ Contender.loaded value = next := by
            simpa [program, storeBuffering, stands] using goes
          obtain ⟨reads, rfl⟩ : shared.memory (!t) = value ∧ shared = middle := by
            simpa [program, Call.access, atomicLoadSeqCst, Shared.executes] using done
          refine ⟨?_, ?_, ?_⟩
          · intro u fresh
            by_cases self : u = t
            · simp [self] at fresh
            · exact ordered.before u (by simpa [self] using fresh)
          · intro u moved
            by_cases self : u = t
            · exact self ▸ ordered.after t (by simp [stands])
            · exact ordered.after u (by simpa [self] using moved)
          · -- A second 0 would have been read after the other thread's store.
            intro u zero both
            have started : shared.control (!t) = .loaded 0 → value ≠ 0 := by
              intro stored gone
              have one := ordered.after (!t) (by simp [stored])
              rw [reads, gone] at one
              cases one
            by_cases self : u = t
            · subst self
              simp only [Function.update_self, Contender.loaded.injEq] at zero
              exact started (by simpa using both) zero
            · have other : (!u) = t := by
                cases u <;> cases t <;> simp_all
              have here : u = !t := by simp [← other]
              simp only [other, Function.update_self, Contender.loaded.injEq] at both
              exact started (here ▸ by simpa [self] using zero) both
      | loaded value => simp [program, storeBuffering, stands] at goes

theorem ordered_reachable {order : List (Bool × Call Bool Int64)}
    {shared : Shared Bool Bool Int64 Contender}
    (ran : Reaches (sharedStep (program storeBuffering)) unrestricted
      { memory := fun _ => 0, control := fun _ => .start } order shared) : Ordered shared :=
  ran.invariant ⟨fun _ _ => rfl, fun _ moved => absurd rfl moved, fun _ zero => by cases zero⟩
    fun s label after kept _ taken => ordered_step s after label kept taken

/-- Both threads store 1 and load 0, with SeqCst throughout: each load overtakes
the store in its thread's buffer. No order on one memory gives these values. -/
theorem seqCst_store_buffering : ∃ trace s,
    Reaches (step (program storeBuffering)) unrestricted
      (init (fun _ => (0 : Int64)) fun _ => .start) trace s ∧
      (∀ t, s.control t = .loaded 0) ∧
      ¬ Explained storeBuffering (fun _ => (0 : Int64)) (fun _ => .start) trace s := by
  have ran : run (step (program storeBuffering)) (init (fun _ => (0 : Int64)) fun _ => .start)
      [(false, .executes (.store false 1)), (true, .executes (.store true 1)),
        (false, .executes (.load true 0)), (true, .executes (.load false 0))] = some _ := rfl
  have zeros : ∀ t : Bool, Function.update (Function.update (Function.update (Function.update
      (fun _ => Contender.start) false .stored) true .stored) false (.loaded 0)) true
        (.loaded 0) t = .loaded 0 := by decide
  refine ⟨_, _, run_free ran, zeros, ?_⟩
  rintro ⟨order, shared, reached, same, -⟩
  have both : ∀ t, shared.control t = .loaded 0 := fun t => by rw [same]; exact zeros t
  exact (ordered_reachable reached).seen false (both false) (both true)

end ConcurrencyCourse.Atomic
