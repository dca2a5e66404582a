import ConcurrencyCourse.Interleaving
import ConcurrencyCourse.Headcount
import ConcurrencyCourse.BlockingQueue

/-!
`tp::StaticThreadPool` of tasks/condvar/thread-pool. The workers run Work, any other
thread may Submit, and one of them calls Join or Shutdown, once, and does nothing after
it. A task is arbitrary
code: while it runs it submits whatever it likes, and it returns or throws. The steps
are the atomic operations on `planned_work_counter_` and the critical sections of the
queue; FutexWait parks its caller only where the word has the expected value.
-/

namespace ConcurrencyCourse.ThreadPool

open Interleaving Headcount BlockingQueue

inductive Stop where
  | join
  | shutdown
  deriving DecidableEq

/-- `parent` is the task that calls Submit, if one does. -/
inductive Pc (Thread Task : Type) where
  | outside
  | increment (parent : Option Task) (task : Task)
  | put (parent : Option Task) (task : Task)
  | take
  | parkedTake
  | executing (task : Task)
  | countDown
  | notifyOne
  | exited
  | joinTest
  | futexWait
  | futexParked
  | close
  | cancel
  | joining (stop : Stop) (rest : List Thread)
  | store
  | stopped
  deriving DecidableEq

inductive Op (Thread Task : Type) where
  | callSubmit (parent : Option Task) (task : Task)
  | increment (parent : Option Task) (task : Task)
  | put (parent : Option Task) (task : Task) (woken : Option Thread)
  | putRefused (parent : Option Task) (task : Task)
  | take (task : Task)
  | takeWait
  | spuriousTake
  | takeNullopt
  | finish (task : Task) (threw : Bool)
  | countDown
  | notifyOne (woken : Option Thread)
  | callJoin
  | joinTest
  | futexWait
  | spuriousFutex
  | close
  | joinWorker (stop : Stop) (worker : Thread) (rest : List Thread)
  | joined (stop : Stop)
  | callShutdown
  | cancel
  | store
  deriving DecidableEq

structure State (Thread Task : Type) where
  plannedWorkCounter : UInt32
  tasks : UnboundedBlockingQueue Task
  stopCalled : Bool
  pc : Thread → Pc Thread Task

abbrev Label (Thread Task : Type) := Thread × Op Thread Task

variable {Thread Task : Type}

def Pc.isParkedTake : Pc Thread Task → Bool
  | .parkedTake => true
  | _ => false

def Pc.isFutexParked : Pc Thread Task → Bool
  | .futexParked => true
  | _ => false

def resume : Option Task → Pc Thread Task
  | none => .outside
  | some parent => .executing parent

def afterJoining : Stop → Pc Thread Task
  | .join => .stopped
  | .shutdown => .store

theorem parkedTake_of {pc : Pc Thread Task} (asleep : pc.isParkedTake = true) :
    pc = .parkedTake := by
  cases pc <;> first | rfl | cases asleep

theorem futexParked_of {pc : Pc Thread Task} (asleep : pc.isFutexParked = true) :
    pc = .futexParked := by
  cases pc <;> first | rfl | cases asleep

section Step
variable [DecidableEq Thread]

def init (workers : List Thread) : State Thread Task :=
  { plannedWorkCounter := 0, tasks := empty, stopCalled := false,
    pc := fun t => if t ∈ workers then .take else .outside }

variable [Fintype Thread] [DecidableEq Task]

def step (workers : List Thread) (s : State Thread Task) :
    Label Thread Task → Option (State Thread Task)
  | (t, .callSubmit parent task) => guarded (s.pc t = resume parent)
      { s with pc := Function.update s.pc t (.increment parent task) }
  | (t, .increment parent task) => guarded (s.pc t = .increment parent task)
      { s with
        plannedWorkCounter := s.plannedWorkCounter + 1
        pc := Function.update s.pc t (.put parent task) }
  | (t, .put parent task woken) =>
      guarded (s.pc t = .put parent task ∧ (s.tasks.put task).2 = true ∧
          Wakes Pc.isParkedTake s.pc woken)
        { s with
          tasks := (s.tasks.put task).1
          pc := Function.update (wakeOne .take s.pc woken) t (resume parent) }
  -- Submit drops the result of Put; the increment stays.
  | (t, .putRefused parent task) =>
      guarded (s.pc t = .put parent task ∧ (s.tasks.put task).2 = false)
        { s with
          tasks := (s.tasks.put task).1
          pc := Function.update s.pc t (resume parent) }
  | (t, .take task) => guarded (s.pc t = .take ∧ s.tasks.take.1 = .value task)
      { s with tasks := s.tasks.take.2, pc := Function.update s.pc t (.executing task) }
  | (t, .takeWait) => guarded (s.pc t = .take ∧ s.tasks.take.1 = .waits)
      { s with pc := Function.update s.pc t .parkedTake }
  | (t, .spuriousTake) => guarded (s.pc t = .parkedTake)
      { s with pc := Function.update s.pc t .take }
  | (t, .takeNullopt) => guarded (s.pc t = .take ∧ s.tasks.take.1 = .nullopt)
      { s with pc := Function.update s.pc t .exited }
  -- ExecuteHere swallows what the task throws.
  | (t, .finish task _) => guarded (s.pc t = .executing task)
      { s with pc := Function.update s.pc t .countDown }
  | (t, .countDown) => guarded (s.pc t = .countDown)
      { s with
        plannedWorkCounter := s.plannedWorkCounter - 1
        pc := Function.update s.pc t (if s.plannedWorkCounter - 1 = 0 then .notifyOne else .take) }
  | (t, .notifyOne woken) => guarded (s.pc t = .notifyOne ∧ Wakes Pc.isFutexParked s.pc woken)
      { s with pc := Function.update (wakeOne .joinTest s.pc woken) t .take }
  | (t, .callJoin) => guarded (s.pc t = .outside ∧ s.stopCalled = false)
      { s with stopCalled := true, pc := Function.update s.pc t .joinTest }
  | (t, .joinTest) => guarded (s.pc t = .joinTest)
      { s with
        pc := Function.update s.pc t (if s.plannedWorkCounter = 0 then .close else .futexWait) }
  -- FutexWait(0): the word the caller expects is the one the loop waits for.
  | (t, .futexWait) => guarded (s.pc t = .futexWait)
      { s with
        pc := Function.update s.pc t
          (if s.plannedWorkCounter = 0 then .futexParked else .joinTest) }
  | (t, .spuriousFutex) => guarded (s.pc t = .futexParked)
      { s with pc := Function.update s.pc t .joinTest }
  | (t, .close) => guarded (s.pc t = .close)
      { s with
        tasks := s.tasks.close
        pc := Function.update (wakeAll Pc.isParkedTake .take s.pc) t (.joining .join workers) }
  | (t, .joinWorker stop worker rest) =>
      guarded (s.pc t = .joining stop (worker :: rest) ∧ s.pc worker = .exited)
        { s with pc := Function.update s.pc t (.joining stop rest) }
  | (t, .joined stop) => guarded (s.pc t = .joining stop [])
      { s with pc := Function.update s.pc t (afterJoining stop) }
  | (t, .callShutdown) => guarded (s.pc t = .outside ∧ s.stopCalled = false)
      { s with stopCalled := true, pc := Function.update s.pc t .cancel }
  | (t, .cancel) => guarded (s.pc t = .cancel)
      { s with
        tasks := s.tasks.cancel
        pc := Function.update (wakeAll Pc.isParkedTake .take s.pc) t
          (.joining .shutdown workers) }
  | (t, .store) => guarded (s.pc t = .store)
      { s with plannedWorkCounter := 0, pc := Function.update s.pc t .stopped }

variable {workers : List Thread} {s after : State Thread Task} {t u : Thread}
  {op : Op Thread Task}

theorem other_step (other : u ≠ t) (taken : step workers s (t, op) = some after) :
    after.pc u = s.pc u ∨ (s.pc u = .parkedTake ∧ after.pc u = .take) ∨
      (s.pc u = .futexParked ∧ after.pc u = .joinTest) := by
  cases op with
  | put parent task woken =>
      rcases guarded_eq_some.mp taken with ⟨⟨_, _, wakes⟩, rfl⟩
      simp only [Function.update_of_ne other]
      rcases wakeOne_cases .take wakes u with same | ⟨asleep, awake⟩
      · exact Or.inl same
      · exact Or.inr (Or.inl ⟨parkedTake_of asleep, awake⟩)
  | notifyOne woken =>
      rcases guarded_eq_some.mp taken with ⟨⟨_, wakes⟩, rfl⟩
      simp only [Function.update_of_ne other]
      rcases wakeOne_cases .joinTest wakes u with same | ⟨asleep, awake⟩
      · exact Or.inl same
      · exact Or.inr (Or.inr ⟨futexParked_of asleep, awake⟩)
  | close | cancel =>
      rcases guarded_eq_some.mp taken with ⟨_, rfl⟩
      simp only [Function.update_of_ne other]
      rcases wakeAll_cases Pc.isParkedTake .take s.pc u with same | ⟨asleep, awake⟩
      · exact Or.inl same
      · exact Or.inr (Or.inl ⟨parkedTake_of asleep, awake⟩)
  | _ =>
      rcases guarded_eq_some.mp taken with ⟨_, rfl⟩
      exact Or.inl (Function.update_of_ne other _ _)

def Op.source : Op Thread Task → Pc Thread Task
  | .callSubmit parent _ => resume parent
  | .increment parent task => .increment parent task
  | .put parent task _ | .putRefused parent task => .put parent task
  | .take _ | .takeWait | .takeNullopt => .take
  | .spuriousTake => .parkedTake
  | .finish task _ => .executing task
  | .countDown => .countDown
  | .notifyOne _ => .notifyOne
  | .callJoin | .callShutdown => .outside
  | .joinTest => .joinTest
  | .futexWait => .futexWait
  | .spuriousFutex => .futexParked
  | .close => .close
  | .joinWorker stop worker rest => .joining stop (worker :: rest)
  | .joined stop => .joining stop []
  | .cancel => .cancel
  | .store => .store

/-- Where it leads; `zero` is the test of the counter that three of them make. -/
def Op.target (workers : List Thread) (zero : Bool) : Op Thread Task → Pc Thread Task
  | .callSubmit parent task => .increment parent task
  | .increment parent task => .put parent task
  | .put parent _ _ | .putRefused parent _ => resume parent
  | .take task => .executing task
  | .takeWait => .parkedTake
  | .takeNullopt => .exited
  | .spuriousTake | .notifyOne _ => .take
  | .finish _ _ => .countDown
  | .countDown => if zero then .notifyOne else .take
  | .callJoin | .spuriousFutex => .joinTest
  | .callShutdown => .cancel
  | .joinTest => if zero then .close else .futexWait
  | .futexWait => if zero then .futexParked else .joinTest
  | .close => .joining .join workers
  | .joinWorker stop _ rest => .joining stop rest
  | .joined stop => afterJoining stop
  | .cancel => .joining .shutdown workers
  | .store => .stopped

theorem own_step (taken : step workers s (t, op) = some after) :
    s.pc t = op.source ∧ ∃ zero, after.pc t = op.target workers zero := by
  cases op with
  | countDown =>
      rcases guarded_eq_some.mp taken with ⟨here, rfl⟩
      exact ⟨here, decide (s.plannedWorkCounter - 1 = 0), by simp [Op.target]⟩
  | joinTest | futexWait =>
      rcases guarded_eq_some.mp taken with ⟨here, rfl⟩
      exact ⟨here, decide (s.plannedWorkCounter = 0), by simp [Op.target]⟩
  | put | putRefused | take | takeWait | takeNullopt | notifyOne | callJoin | callShutdown
    | joinWorker =>
      rcases guarded_eq_some.mp taken with ⟨⟨here, _⟩, rfl⟩
      exact ⟨here, false, by simp [Op.target]⟩
  | _ =>
      rcases guarded_eq_some.mp taken with ⟨here, rfl⟩
      exact ⟨here, false, by simp [Op.target]⟩

/-- A class of program points that a wake-up does not cross. -/
structure Settled (stands : Pc Thread Task → Bool) : Prop where
  take : stands .take = stands .parkedTake
  join : stands .joinTest = stands .futexParked

theorem Settled.other {stands : Pc Thread Task → Bool} (settled : Settled stands)
    (taken : step workers s (t, op) = some after) (u : Thread) (other : u ≠ t) :
    stands (after.pc u) = stands (s.pc u) := by
  rcases other_step other taken with same | ⟨asleep, awake⟩ | ⟨asleep, awake⟩
  · rw [same]
  · rw [asleep, awake, settled.take]
  · rw [asleep, awake, settled.join]

theorem Settled.cases {stands : Pc Thread Task → Bool} (settled : Settled stands)
    (taken : step workers s (t, op) = some after) (u : Thread) :
    stands (after.pc u) = stands (s.pc u) ∨
      u = t ∧ s.pc u = op.source ∧ ∃ zero, after.pc u = op.target workers zero := by
  by_cases self : u = t
  · exact Or.inr ⟨self, self ▸ own_step taken⟩
  · exact Or.inl (settled.other taken u self)

theorem Settled.moved {stands : Pc Thread Task → Bool} (settled : Settled stands)
    (taken : step workers s (t, op) = some after) :
    headcount stands after.pc + (stands (s.pc t)).toNat =
      headcount stands s.pc + (stands (after.pc t)).toNat :=
  headcount_moved (settled.other taken)

end Step

/-! What `planned_work_counter_` counts. -/

def Pc.submitting : Pc Thread Task → Bool
  | .increment _ _ => true
  | .put _ _ => true
  | _ => false

/-- The thread has counted a task that it has not put yet. -/
def Pc.atPut : Pc Thread Task → Bool
  | .put _ _ => true
  | _ => false

def Pc.hasTaken : Pc Thread Task → Bool
  | .executing _ => true
  | .countDown => true
  | .increment (some _) _ => true
  | .put (some _) _ => true
  | _ => false

/-! What a run has done with its tasks, each in the order of the run. -/

def submittedTask : Label Thread Task → Option Task
  | (_, .callSubmit _ task) => some task
  | _ => none

def acceptedTask : Label Thread Task → Option Task
  | (_, .put _ task _) => some task
  | _ => none

def refusedTask : Label Thread Task → Option Task
  | (_, .putRefused _ task) => some task
  | _ => none

def startedTask : Label Thread Task → Option Task
  | (_, .take task) => some task
  | _ => none

def finishedTask : Label Thread Task → Option Task
  | (_, .finish task _) => some task
  | _ => none

def submitted (trace : List (Label Thread Task)) : List Task := trace.filterMap submittedTask

def accepted (trace : List (Label Thread Task)) : List Task := trace.filterMap acceptedTask

def refused (trace : List (Label Thread Task)) : List Task := trace.filterMap refusedTask

def started (trace : List (Label Thread Task)) : List Task := trace.filterMap startedTask

def finished (trace : List (Label Thread Task)) : List Task := trace.filterMap finishedTask

theorem settled_hasTaken : Settled (Pc.hasTaken : Pc Thread Task → Bool) := ⟨rfl, rfl⟩

theorem settled_atPut : Settled (Pc.atPut : Pc Thread Task → Bool) := ⟨rfl, rfl⟩

section Balance
variable [Fintype Thread]

def pending (s : State Thread Task) : ℕ := s.tasks.queue.length + headcount Pc.hasTaken s.pc

def outstanding (s : State Thread Task) : ℕ := pending s + headcount Pc.atPut s.pc

variable [DecidableEq Thread] {workers : List Thread} {s after : State Thread Task} {t u : Thread}
  {op : Op Thread Task}

theorem outstanding_init : outstanding (init workers : State Thread Task) = 0 := by
  have takers : headcount Pc.hasTaken (init workers : State Thread Task).pc = 0 := by
    apply headcount_eq_zero.mpr
    intro u
    by_cases worker : u ∈ workers <;> simp [init, worker, Pc.hasTaken]
  have putters : headcount Pc.atPut (init workers : State Thread Task).pc = 0 := by
    apply headcount_eq_zero.mpr
    intro u
    by_cases worker : u ∈ workers <;> simp [init, worker, Pc.atPut]
  rw [outstanding, pending, takers, putters]
  rfl

variable [DecidableEq Task]

/-- A step of Submit, Work or Join changes the counter with the number of tasks
outstanding, except that a refused task stays counted. -/
theorem outstanding_step (taken : step workers s (t, op) = some after)
    (kept : op ≠ .cancel) (unset : op ≠ .store) :
    (after.plannedWorkCounter = s.plannedWorkCounter ∧ refusedTask (t, op) = none ∧
      outstanding after = outstanding s) ∨
    (∃ parent task, op = .increment parent task ∧
      after.plannedWorkCounter = s.plannedWorkCounter + 1 ∧
      outstanding after = outstanding s + 1) ∨
    (after.plannedWorkCounter = s.plannedWorkCounter ∧ (refusedTask (t, op)).isSome = true ∧
      outstanding after + 1 = outstanding s) ∨
    (op = .countDown ∧ after.plannedWorkCounter = s.plannedWorkCounter - 1 ∧
      outstanding after + 1 = outstanding s) := by
  have takers := settled_hasTaken.moved taken
  have putters := settled_atPut.moved taken
  simp only [outstanding, pending]
  cases op with
  | cancel => exact absurd rfl kept
  | store => exact absurd rfl unset
  | increment parent task =>
      rcases guarded_eq_some.mp taken with ⟨here, rfl⟩
      cases parent <;> simp [here, Pc.hasTaken, Pc.atPut, refusedTask] at takers putters ⊢ <;> omega
  | put parent task woken =>
      rcases guarded_eq_some.mp taken with ⟨⟨here, accepted, _⟩, rfl⟩
      cases parent <;>
        simp [here, resume, UnboundedBlockingQueue.put_accepts accepted, Pc.hasTaken, Pc.atPut,
          refusedTask] at takers putters ⊢ <;> omega
  | putRefused parent task =>
      rcases guarded_eq_some.mp taken with ⟨⟨here, closed⟩, rfl⟩
      cases parent <;>
        simp [here, resume, (UnboundedBlockingQueue.put_refuses closed).2, Pc.hasTaken, Pc.atPut,
          refusedTask] at takers putters ⊢ <;> omega
  | take task =>
      rcases guarded_eq_some.mp taken with ⟨⟨here, found⟩, rfl⟩
      rcases UnboundedBlockingQueue.take_value found with ⟨rest, content, left⟩
      simp [here, content, left, Pc.hasTaken, Pc.atPut, refusedTask] at takers putters ⊢
      omega
  | countDown =>
      rcases guarded_eq_some.mp taken with ⟨here, rfl⟩
      by_cases last : s.plannedWorkCounter - 1 = 0 <;>
        simp [here, last, Pc.hasTaken, Pc.atPut, refusedTask] at takers putters ⊢ <;> omega
  | callSubmit parent task =>
      rcases guarded_eq_some.mp taken with ⟨here, rfl⟩
      cases parent <;>
        simp [here, resume, Pc.hasTaken, Pc.atPut, refusedTask] at takers putters ⊢ <;> omega
  | takeWait | takeNullopt | notifyOne | callJoin | callShutdown | joinWorker =>
      rcases guarded_eq_some.mp taken with ⟨⟨here, _⟩, rfl⟩
      simp [here, Pc.hasTaken, Pc.atPut, refusedTask] at takers putters ⊢
      omega
  | joinTest | futexWait =>
      rcases guarded_eq_some.mp taken with ⟨here, rfl⟩
      by_cases zero : s.plannedWorkCounter = 0 <;>
        simp [here, zero, Pc.hasTaken, Pc.atPut, refusedTask] at takers putters ⊢ <;> omega
  | joined stop =>
      rcases guarded_eq_some.mp taken with ⟨here, rfl⟩
      cases stop <;>
        simp [here, afterJoining, Pc.hasTaken, Pc.atPut, refusedTask] at takers putters ⊢ <;> omega
  | _ =>
      rcases guarded_eq_some.mp taken with ⟨here, rfl⟩
      simp [here, Pc.hasTaken, Pc.atPut, refusedTask, UnboundedBlockingQueue.close,
        UnboundedBlockingQueue.closeImpl] at takers putters ⊢
      omega

/-- The run calls Join, if it stops the pool at all. -/
def joinOnly (_ : State Thread Task) (label : Label Thread Task) : Prop :=
  label.2 ≠ .callShutdown

instance (s : State Thread Task) (label : Label Thread Task) : Decidable (joinOnly s label) :=
  inferInstanceAs (Decidable (label.2 ≠ .callShutdown))

def Pc.shuttingDown : Pc Thread Task → Bool
  | .cancel => true
  | .joining .shutdown _ => true
  | .store => true
  | _ => false

variable {trace : List (Label Thread Task)}

theorem no_shutdown (reached : Reaches (step workers) joinOnly (init workers) trace s) :
    ∀ u, (s.pc u).shuttingDown = false := by
  have settled : Settled (Pc.shuttingDown : Pc Thread Task → Bool) := ⟨rfl, rfl⟩
  induction reached with
  | start =>
      intro u
      by_cases worker : u ∈ workers <;> simp [init, worker, Pc.shuttingDown]
  | next label _ admitted taken ih =>
      intro u
      rcases label with ⟨t, op⟩
      rcases settled.cases taken u with same | ⟨_, here, zero, there⟩
      · rw [same]
        exact ih u
      · have before := ih u
        rw [here] at before
        rw [there]
        cases op with
        | callShutdown => exact absurd rfl admitted
        | cancel | store => cases before
        | callSubmit parent | put parent | putRefused parent => cases parent <;> rfl
        | joined stop | joinWorker stop => cases stop <;> first | rfl | cases before
        | _ => cases zero <;> rfl

theorem join_ordinary (reached : Reaches (step workers) joinOnly (init workers) trace s)
    (taken : step workers s (t, op) = some after) : op ≠ .cancel ∧ op ≠ .store := by
  have running := no_shutdown reached t
  rw [(own_step taken).1] at running
  constructor
  · rintro rfl
    cases running
  · rintro rfl
    cases running

theorem counter_balance (reached : Reaches (step workers) joinOnly (init workers) trace s) :
    s.plannedWorkCounter = UInt32.ofNat (outstanding s + (refused trace).length) := by
  induction reached with
  | start =>
      rw [outstanding_init]
      rfl
  | @next trace s after label reached _ taken ih =>
      rcases label with ⟨t, op⟩
      rcases join_ordinary reached taken with ⟨kept, unset⟩
      have more : (refused (trace ++ [(t, op)])).length =
          (refused trace).length + (refusedTask (t, op)).isSome.toNat := by
        cases counts : refusedTask (t, op) <;> simp [refused, counts]
      rw [more]
      rcases outstanding_step taken kept unset with ⟨counter, accepted, same⟩ |
          ⟨_, _, rfl, counter, same⟩ | ⟨counter, refuses, same⟩ | ⟨rfl, counter, same⟩
      · rw [counter, accepted, same, ih]
        rfl
      · rw [counter, same, ih]
        apply UInt32.toNat_inj.mp
        simp only [refusedTask, Option.isSome_none, Bool.toNat_false, UInt32.toNat_add,
          UInt32.toNat_ofNat', UInt32.toNat_one]
        omega
      · rw [counter, refuses, ih, ← same]
        simp only [Bool.toNat_true]
        congr 1
        omega
      · rw [counter, ih, ← same]
        apply UInt32.toNat_inj.mp
        simp only [refusedTask, Option.isSome_none, Bool.toNat_false, UInt32.toNat_sub,
          UInt32.toNat_ofNat', UInt32.toNat_one]
        omega

end Balance

/-! Every task is in one place: in a Submit, in the queue, at a worker, or done. -/
section Conservation
variable [Fintype Thread] [DecidableEq Thread] [DecidableEq Task] {workers : List Thread}
  {s after : State Thread Task} {t : Thread} {op : Op Thread Task}
  {trace : List (Label Thread Task)}

def Pc.submits (task : Task) : Pc Thread Task → Bool
  | .increment _ own => own = task
  | .put _ own => own = task
  | _ => false

def Pc.runs (task : Task) : Pc Thread Task → Bool
  | .executing own => own = task
  | .increment (some own) _ => own = task
  | .put (some own) _ => own = task
  | _ => false

theorem submits_step (taken : step workers s (t, op) = some after) (task : Task) :
    (submittedTask (t, op)).toList.count task + headcount (Pc.submits task) s.pc =
      (acceptedTask (t, op)).toList.count task + (refusedTask (t, op)).toList.count task +
        headcount (Pc.submits task) after.pc := by
  have settled : Settled (Pc.submits task : Pc Thread Task → Bool) := ⟨rfl, rfl⟩
  have moved := settled.moved taken
  rcases own_step taken with ⟨here, zero, there⟩
  rw [here, there] at moved
  cases op with
  | callSubmit parent own =>
      cases parent <;> by_cases same : own = task <;>
        simp [same, Op.source, Op.target, resume, Pc.submits, submittedTask, acceptedTask,
          refusedTask] at moved ⊢ <;> omega
  | put parent own | putRefused parent own =>
      cases parent <;> by_cases same : own = task <;>
        simp [same, Op.source, Op.target, resume, Pc.submits, submittedTask, acceptedTask,
          refusedTask] at moved ⊢ <;> omega
  | joined stop =>
      cases stop <;>
        simp [Op.source, Op.target, afterJoining, Pc.submits, submittedTask, acceptedTask,
          refusedTask] at moved ⊢ <;> omega
  | _ =>
      cases zero <;>
        simp [Op.source, Op.target, Pc.submits, submittedTask, acceptedTask, refusedTask]
          at moved ⊢ <;> omega

theorem runs_step (taken : step workers s (t, op) = some after) (task : Task) :
    (startedTask (t, op)).toList.count task + headcount (Pc.runs task) s.pc =
      (finishedTask (t, op)).toList.count task + headcount (Pc.runs task) after.pc := by
  have settled : Settled (Pc.runs task : Pc Thread Task → Bool) := ⟨rfl, rfl⟩
  have moved := settled.moved taken
  rcases own_step taken with ⟨here, zero, there⟩
  rw [here, there] at moved
  cases op with
  | callSubmit parent | increment parent | put parent | putRefused parent =>
      cases parent <;>
        simp [Op.source, Op.target, resume, Pc.runs, startedTask, finishedTask] at moved ⊢ <;>
        omega
  | take own | finish own =>
      by_cases same : own = task <;>
        simp [same, Op.source, Op.target, Pc.runs, startedTask, finishedTask] at moved ⊢ <;>
        omega
  | joined stop =>
      cases stop <;>
        simp [Op.source, Op.target, afterJoining, Pc.runs, startedTask, finishedTask]
          at moved ⊢ <;> omega
  | _ =>
      cases zero <;>
        simp [Op.source, Op.target, Pc.runs, startedTask, finishedTask] at moved ⊢ <;> omega

theorem submitted_count (reached : Reaches (step workers) unrestricted (init workers) trace s)
    (task : Task) : (submitted trace).count task =
      (accepted trace).count task + (refused trace).count task +
        headcount (Pc.submits task) s.pc := by
  induction reached with
  | start =>
      have nobody : headcount (Pc.submits task) (init workers : State Thread Task).pc = 0 := by
        apply headcount_eq_zero.mpr
        intro u
        by_cases worker : u ∈ workers <;> simp [init, worker, Pc.submits]
      simp [nobody, submitted, accepted, refused]
  | next label _ _ taken ih =>
      rcases label with ⟨t, op⟩
      have moved := submits_step taken task
      simp only [submitted, accepted, refused, filterMap_snoc, List.count_append] at ih ⊢
      omega

theorem started_count (reached : Reaches (step workers) unrestricted (init workers) trace s)
    (task : Task) : (started trace).count task =
      (finished trace).count task + headcount (Pc.runs task) s.pc := by
  induction reached with
  | start =>
      have nobody : headcount (Pc.runs task) (init workers : State Thread Task).pc = 0 := by
        apply headcount_eq_zero.mpr
        intro u
        by_cases worker : u ∈ workers <;> simp [init, worker, Pc.runs]
      simp [nobody, started, finished]
  | next label _ _ taken ih =>
      rcases label with ⟨t, op⟩
      have moved := runs_step taken task
      simp only [started, finished, filterMap_snoc, List.count_append] at ih ⊢
      omega

theorem accepted_until_cancel
    (reached : Reaches (step workers) unrestricted (init workers) trace s)
    (kept : ∀ label ∈ trace, label.2 ≠ .cancel) :
    accepted trace = started trace ++ s.tasks.queue := by
  induction reached with
  | start => rfl
  | next label reached _ taken ih =>
      rcases label with ⟨t, op⟩
      simp only [accepted, started, filterMap_snoc] at ih ⊢
      rw [ih fun label member => kept label (List.mem_append_left _ member)]
      cases op with
      | put parent task woken =>
          rcases guarded_eq_some.mp taken with ⟨⟨_, open', _⟩, rfl⟩
          simp [acceptedTask, startedTask, UnboundedBlockingQueue.put_accepts open']
      | putRefused parent task =>
          rcases guarded_eq_some.mp taken with ⟨⟨_, closed⟩, rfl⟩
          simp [acceptedTask, startedTask, (UnboundedBlockingQueue.put_refuses closed).2]
      | take task =>
          rcases guarded_eq_some.mp taken with ⟨⟨_, found⟩, rfl⟩
          rcases UnboundedBlockingQueue.take_value found with ⟨rest, content, left⟩
          simp [acceptedTask, startedTask, content, left]
      | cancel => exact absurd rfl (kept (t, .cancel) (by simp))
      | _ =>
          rcases guarded_eq_some.mp taken with ⟨_, rfl⟩
          simp [acceptedTask, startedTask, UnboundedBlockingQueue.close,
            UnboundedBlockingQueue.closeImpl]

theorem join_no_cancel (reached : Reaches (step workers) joinOnly (init workers) trace s) :
    ∀ label ∈ trace, label.2 ≠ .cancel := by
  induction reached with
  | start => simp
  | next label reached _ taken ih =>
      intro own member
      rcases List.mem_append.mp member with before | last
      · exact ih own before
      · rw [List.mem_singleton.mp last]
        exact (join_ordinary reached taken).1

theorem accepted_in_order (reached : Reaches (step workers) joinOnly (init workers) trace s) :
    accepted trace = started trace ++ s.tasks.queue :=
  accepted_until_cancel reached.free (join_no_cancel reached)

end Conservation

/-! The thread that stops the pool, and the workers it joins. -/
def Pc.stopping : Pc Thread Task → Bool
  | .joinTest | .futexWait | .futexParked | .close => true
  | .cancel | .joining _ _ | .store | .stopped => true
  | _ => false

def Pc.working : Pc Thread Task → Bool
  | .take | .parkedTake | .executing _ | .countDown | .notifyOne | .exited => true
  | .increment (some _) _ => true
  | .put (some _) _ => true
  | _ => false

theorem working_hasTaken {pc : Pc Thread Task} (has : pc.hasTaken = true) :
    pc.working = true := by
  cases pc with
  | increment parent | put parent => cases parent <;> first | rfl | cases has
  | _ => first | rfl | cases has

section Stopping
variable [Fintype Thread] [DecidableEq Thread] [DecidableEq Task] {workers : List Thread}
  {s after : State Thread Task} {t u : Thread} {op : Op Thread Task}
  {trace : List (Label Thread Task)}

theorem stopping_step (taken : step workers s (t, op) = some after) :
    op.source.stopping = true ∧ (after.pc t).stopping = true ∧
      after.stopCalled = s.stopCalled ∨
    op.source.stopping = false ∧ (after.pc t).stopping = false ∧
      after.stopCalled = s.stopCalled ∨
    op.source.stopping = false ∧ s.stopCalled = false ∧ after.stopCalled = true := by
  rcases own_step taken with ⟨_, zero, there⟩
  rw [there]
  cases op with
  | callJoin | callShutdown =>
      rcases guarded_eq_some.mp taken with ⟨⟨_, fresh⟩, rfl⟩
      exact Or.inr (Or.inr ⟨rfl, fresh, rfl⟩)
  | callSubmit parent | put parent | putRefused parent =>
      rcases guarded_eq_some.mp taken with ⟨_, rfl⟩
      cases parent <;> exact Or.inr (Or.inl ⟨rfl, rfl, rfl⟩)
  | joined stop =>
      rcases guarded_eq_some.mp taken with ⟨_, rfl⟩
      cases stop <;> exact Or.inl ⟨rfl, rfl, rfl⟩
  | joinTest | futexWait | countDown =>
      rcases guarded_eq_some.mp taken with ⟨_, rfl⟩
      cases zero <;> simp [Op.source, Op.target, Pc.stopping]
  | _ =>
      rcases guarded_eq_some.mp taken with ⟨_, rfl⟩
      simp [Op.source, Op.target, Pc.stopping]

theorem one_stopper (reached : Reaches (step workers) unrestricted (init workers) trace s) :
    headcount Pc.stopping s.pc ≤ s.stopCalled.toNat := by
  induction reached with
  | start =>
      have nobody : headcount Pc.stopping (init workers : State Thread Task).pc = 0 := by
        apply headcount_eq_zero.mpr
        intro u
        by_cases worker : u ∈ workers <;> simp [init, worker, Pc.stopping]
      simp [nobody]
  | @next trace s after label _ _ taken ih =>
      rcases label with ⟨t, op⟩
      have settled : Settled (Pc.stopping : Pc Thread Task → Bool) := ⟨rfl, rfl⟩
      have moved := settled.moved taken
      rw [(own_step taken).1] at moved
      rcases stopping_step taken with ⟨before, now, same⟩ | ⟨before, now, same⟩ |
          ⟨before, fresh, called⟩
      · rw [before, now] at moved
        rw [same]
        omega
      · rw [before, now] at moved
        rw [same]
        omega
      · have most := Bool.toNat_le (after.pc t).stopping
        rw [before] at moved
        rw [fresh] at ih
        rw [called]
        simp only [Bool.toNat_false, Bool.toNat_true] at moved ih ⊢
        omega

theorem stopper_unique (reached : Reaches (step workers) unrestricted (init workers) trace s)
    (first : (s.pc t).stopping = true) (second : (s.pc u).stopping = true) : t = u :=
  headcount_unique ((one_stopper reached).trans (Bool.toNat_le _)) first second

theorem stopping_called (reached : Reaches (step workers) unrestricted (init workers) trace s)
    (stops : (s.pc t).stopping = true) : s.stopCalled = true := by
  have some' := headcount_pos_of stops
  have most := one_stopper reached
  cases called : s.stopCalled with
  | true => rfl
  | false =>
      rw [called] at most
      simp only [Bool.toNat_false] at most
      omega

theorem working_worker (reached : Reaches (step workers) unrestricted (init workers) trace s) :
    ∀ u, (s.pc u).working = true → u ∈ workers := by
  induction reached with
  | start =>
      intro u works
      by_contra other
      simp [init, other, Pc.working] at works
  | next label _ _ taken ih =>
      intro u works
      rcases label with ⟨t, op⟩
      have settled : Settled (Pc.working : Pc Thread Task → Bool) := ⟨rfl, rfl⟩
      rcases settled.cases taken u with same | ⟨_, here, zero, there⟩
      · exact ih u (same ▸ works)
      · apply ih u
        rw [here]
        rw [there] at works
        cases op with
        | callSubmit parent | increment parent | put parent | putRefused parent =>
            cases parent <;> first | rfl | cases works
        | joined stop => cases stop <;> cases works
        | _ => cases zero <;> first | rfl | cases works

theorem exited_kept (taken : step workers s (t, op) = some after) (gone : s.pc u = .exited) :
    after.pc u = .exited := by
  by_cases self : u = t
  · subst self
    have here := (own_step taken).1
    rw [gone] at here
    cases op with
    | callSubmit parent => cases parent <;> cases here
    | _ => cases here
  · rcases other_step self taken with same | ⟨asleep, _⟩ | ⟨asleep, _⟩
    · rw [same, gone]
    · simp [gone] at asleep
    · simp [gone] at asleep

def Pc.unjoined (workers : List Thread) : Pc Thread Task → List Thread
  | .joining _ rest => rest
  | .store => []
  | .stopped => []
  | _ => workers

theorem joined_exited (reached : Reaches (step workers) unrestricted (init workers) trace s) :
    ∀ j, ∀ w ∈ workers, w ∈ (s.pc j).unjoined workers ∨ s.pc w = .exited := by
  induction reached with
  | start =>
      intro j w member
      by_cases worker : j ∈ workers <;> simp [init, worker, Pc.unjoined, member]
  | next label _ _ taken ih =>
      intro j w member
      rcases label with ⟨t, op⟩
      rcases ih j w member with unjoined | gone
      · by_cases self : j = t
        · subst self
          rcases own_step taken with ⟨here, zero, there⟩
          rw [here] at unjoined
          rw [there]
          cases op with
          | joinWorker stop worker rest =>
              -- The joined worker has left Work, the others are still on the list.
              rcases List.mem_cons.mp unjoined with rfl | later
              · rcases guarded_eq_some.mp taken with ⟨⟨_, gone⟩, _⟩
                exact Or.inr (exited_kept taken gone)
              · exact Or.inl later
          | joined => cases unjoined
          | store => cases unjoined
          | callSubmit parent | put parent | putRefused parent =>
              cases parent <;> exact Or.inl member
          | _ => cases zero <;> exact Or.inl member
        · apply Or.inl
          rcases other_step self taken with same | ⟨asleep, awake⟩ | ⟨asleep, awake⟩
          · rw [same]
            exact unjoined
          · rw [awake]
            exact member
          · rw [awake]
            exact member
      · exact Or.inr (exited_kept taken gone)

theorem closed_empty_kept (taken : step workers s (t, op) = some after)
    (closed : s.tasks.isClosed = true) (drained : s.tasks.queue = []) :
    after.tasks.isClosed = true ∧ after.tasks.queue = [] := by
  cases op with
  | put parent task woken =>
      rcases guarded_eq_some.mp taken with ⟨⟨_, accepted, _⟩, _⟩
      simp [UnboundedBlockingQueue.put_true.mp accepted] at closed
  | putRefused parent task =>
      rcases guarded_eq_some.mp taken with ⟨⟨_, refuses⟩, rfl⟩
      simp [(UnboundedBlockingQueue.put_refuses refuses).2, closed, drained]
  | take task =>
      rcases guarded_eq_some.mp taken with ⟨⟨_, found⟩, _⟩
      rcases UnboundedBlockingQueue.take_value found with ⟨rest, content, _⟩
      simp [drained] at content
  | close | cancel =>
      rcases guarded_eq_some.mp taken with ⟨_, rfl⟩
      simp [UnboundedBlockingQueue.close, UnboundedBlockingQueue.cancel,
        UnboundedBlockingQueue.closeImpl, drained]
  | _ =>
      rcases guarded_eq_some.mp taken with ⟨_, rfl⟩
      exact ⟨closed, drained⟩

theorem exited_empty (reached : Reaches (step workers) unrestricted (init workers) trace s)
    (gone : s.pc u = .exited) : s.tasks.isClosed = true ∧ s.tasks.queue = [] := by
  induction reached with
  | start => by_cases worker : u ∈ workers <;> simp [init, worker] at gone
  | @next trace s after label _ _ taken ih =>
      rcases label with ⟨t, op⟩
      -- Either it was gone before, or this step is its last Take.
      by_cases before : s.pc u = .exited
      · rcases ih before with ⟨closed, drained⟩
        exact closed_empty_kept taken closed drained
      · by_cases self : u = t
        · subst self
          rcases own_step taken with ⟨_, zero, there⟩
          rw [there] at gone
          cases op with
          | takeNullopt =>
              rcases guarded_eq_some.mp taken with ⟨⟨_, ended⟩, rfl⟩
              exact UnboundedBlockingQueue.take_nullopt ended
          | callSubmit parent | put parent | putRefused parent => cases parent <;> cases gone
          | joined stop => cases stop <;> cases gone
          | _ => cases zero <;> cases gone
        · rcases other_step self taken with same | ⟨_, awake⟩ | ⟨_, awake⟩
          · exact absurd (same ▸ gone) before
          · simp [awake] at gone
          · simp [awake] at gone

theorem stopped_idle (reached : Reaches (step workers) unrestricted (init workers) trace s)
    (stopped : s.pc t = .stopped) (u : Thread) : (s.pc u).hasTaken = false := by
  cases has : (s.pc u).hasTaken with
  | false => rfl
  | true =>
      have worker := working_worker reached u (working_hasTaken has)
      rcases joined_exited reached t u worker with unjoined | gone
      · rw [stopped] at unjoined
        cases unjoined
      · simp [gone, Pc.hasTaken] at has

theorem stopped_empty (reached : Reaches (step workers) unrestricted (init workers) trace s)
    (stopped : s.pc t = .stopped) (staffed : workers ≠ []) : s.tasks.queue = [] := by
  rcases List.exists_mem_of_ne_nil workers staffed with ⟨w, worker⟩
  rcases joined_exited reached t w worker with unjoined | gone
  · rw [stopped] at unjoined
    cases unjoined
  · exact (exited_empty reached gone).2

end Stopping
end ConcurrencyCourse.ThreadPool
