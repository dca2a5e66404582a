import ConcurrencyCourse.ClosableQueue
import ConcurrencyCourse.MonitorClients
import ConcurrencyCourse.PoolRest

/-!
`tp::StaticThreadPool` over the monitor of `tp::UnboundedBlockingQueue`. Submit, Work, Join
and Shutdown call Put, Take, Close and Cancel, which lock, wait and notify step by step;
the operations on `planned_work_counter_` are steps of their own. Over the monitor the pool
does what it does where a critical section and its notification are a single step, and no
task is left behind where nobody can go on.
-/

namespace ConcurrencyCourse.MonitoredPool

open Interleaving Headcount BlockingQueue MonitorClients
open ThreadPool (Pc Stop resume afterJoining)

inductive Act (Thread Task : Type) where
  | callSubmit (parent : Option Task) (task : Task)
  | increment (parent : Option Task) (task : Task)
  | finish (task : Task) (threw : Bool)
  | countDown
  | notifyOne (woken : Option Thread)
  | callJoin
  | joinTest
  | futexWait
  | spuriousFutex
  | joinWorker (stop : Stop) (worker : Thread) (rest : List Thread)
  | joined (stop : Stop)
  | callShutdown
  | store

structure Shared where
  plannedWorkCounter : UInt32
  stopCalled : Bool

variable {Thread Task : Type}

def calls : Pc Thread Task → Option (Unit × ClosableQueue.Call Task)
  | .put _ task => some ((), .put task)
  | .take => some ((), .take)
  | .close => some ((), .close)
  | .cancel => some ((), .cancel)
  | _ => none

/-- Submit drops the result of Put. -/
def behind (workers : List Thread) : Pc Thread Task → ClosableQueue.Result Task → Pc Thread Task
  | .put parent _, _ => resume parent
  | .take, .take (some task) => .executing task
  | .take, .take none => .exited
  | .close, _ => .joining .join workers
  | .cancel, _ => .joining .shutdown workers
  | pc, _ => pc

theorem busy_awake {here : Pc Thread Task} (busy : calls here ≠ none) :
    here.isFutexParked = false := by
  cases here with
  | futexParked => exact absurd rfl busy
  | _ => rfl

theorem behind_awake {workers : List Thread} {here : Pc Thread Task} (busy : calls here ≠ none)
    (result : ClosableQueue.Result Task) :
    (behind workers here result).isFutexParked = false := by
  cases here with
  | put parent task => cases parent <;> rfl
  | take =>
      cases result with
      | take taken => cases taken <;> rfl
      | _ => rfl
  | close | cancel => rfl
  | _ => exact absurd rfl busy

section Machine
variable [DecidableEq Thread] [Fintype Thread] [DecidableEq Task]

def own (t : Thread) (pc : Thread → Pc Thread Task) (s : Shared) :
    Act Thread Task → Option ((Thread → Pc Thread Task) × Shared)
  | .callSubmit parent task => guarded (pc t = resume parent)
      (Function.update pc t (.increment parent task), s)
  | .increment parent task => guarded (pc t = .increment parent task)
      (Function.update pc t (.put parent task),
        { s with plannedWorkCounter := s.plannedWorkCounter + 1 })
  -- ExecuteHere swallows what the task throws.
  | .finish task _ => guarded (pc t = .executing task) (Function.update pc t .countDown, s)
  | .countDown => guarded (pc t = .countDown)
      (Function.update pc t (if s.plannedWorkCounter - 1 = 0 then .notifyOne else .take),
        { s with plannedWorkCounter := s.plannedWorkCounter - 1 })
  | .notifyOne woken => guarded (pc t = .notifyOne ∧ Wakes Pc.isFutexParked pc woken)
      (Function.update (wakeOne .joinTest pc woken) t .take, s)
  | .callJoin => guarded (pc t = .outside ∧ s.stopCalled = false)
      (Function.update pc t .joinTest, { s with stopCalled := true })
  | .joinTest => guarded (pc t = .joinTest)
      (Function.update pc t (if s.plannedWorkCounter = 0 then .close else .futexWait), s)
  -- FutexWait(0): the word the caller expects is the one the loop waits for.
  | .futexWait => guarded (pc t = .futexWait)
      (Function.update pc t (if s.plannedWorkCounter = 0 then .futexParked else .joinTest), s)
  | .spuriousFutex => guarded (pc t = .futexParked) (Function.update pc t .joinTest, s)
  | .joinWorker stop worker rest =>
      guarded (pc t = .joining stop (worker :: rest) ∧ pc worker = .exited)
        (Function.update pc t (.joining stop rest), s)
  | .joined stop => guarded (pc t = .joining stop [])
      (Function.update pc t (afterJoining stop), s)
  | .callShutdown => guarded (pc t = .outside ∧ s.stopCalled = false)
      (Function.update pc t .cancel, { s with stopCalled := true })
  | .store => guarded (pc t = .store)
      (Function.update pc t .stopped, { s with plannedWorkCounter := 0 })

def code (workers : List Thread) : Code Unit Thread (ClosableQueue.Call Task)
    (ClosableQueue.Result Task) (Pc Thread Task) Shared (Act Thread Task) :=
  { calls := calls, behind := behind workers, own := own }

abbrev State (Thread Task : Type) :=
  MonitorClients.State Unit Thread (UnboundedBlockingQueue Task) (ClosableQueue.Call Task)
    (ClosableQueue.Result Task) (Pc Thread Task) Shared

abbrev Label (Thread Task : Type) :=
  Thread × MonitorClients.Op Thread (UnboundedBlockingQueue Task) (ClosableQueue.Call Task)
    (ClosableQueue.Result Task) (Pc Thread Task) (Act Thread Task)

def init (workers : List Thread) : State Thread Task :=
  MonitorClients.init { plannedWorkCounter := 0, stopCalled := false } (fun _ => empty)
    fun t => if t ∈ workers then .take else .outside

def step (workers : List Thread) : State Thread Task → Label Thread Task →
    Option (State Thread Task) :=
  MonitorClients.step (code workers) ClosableQueue.operations

variable {workers : List Thread} {pc passed : Thread → Pc Thread Task}

theorem Passed.wakes (passes : (code workers).Passed pc passed) {woken : Option Thread}
    (wakes : Wakes Pc.isFutexParked pc woken) : Wakes Pc.isFutexParked passed woken := by
  cases woken with
  | none =>
      intro u
      rcases passes u with same | ⟨busy, result, behind⟩
      · rw [same]
        exact wakes u
      · rw [behind]
        exact behind_awake busy result
  | some u =>
      have parked := ThreadPool.futexParked_of wakes
      have same := passes.free (u := u) (congrArg calls parked)
      simp only [Wakes, same]
      exact wakes

theorem Passed.woken (passes : (code workers).Passed pc passed) {woken : Option Thread}
    {u : Thread} (idle : calls (pc u) = none) :
    wakeOne .joinTest passed woken u = wakeOne .joinTest pc woken u := by
  cases woken with
  | none => exact passes.free idle
  | some v =>
      by_cases self : u = v
      · simp [wakeOne, self]
      · simp [wakeOne, self, passes.free (u := u) idle]

theorem Passed.awake (passes : (code workers).Passed pc passed) {u : Thread}
    (busy : calls (pc u) ≠ none) : (passed u).isFutexParked = false := by
  rcases passes u with same | ⟨_, result, behind⟩
  · rw [same]
    exact busy_awake busy
  · rw [behind]
    exact behind_awake busy result

theorem code_lawful : (code workers : Code Unit Thread (ClosableQueue.Call Task)
    (ClosableQueue.Result Task) (Pc Thread Task) Shared (Act Thread Task)).Lawful where
  stays t pc shared act next shared' free acts u busy := by
    have apart : u ≠ t := by
      rintro rfl
      exact busy free
    cases act with
    | notifyOne woken =>
        obtain ⟨⟨_, wakes⟩, same⟩ := guarded_eq_some.mp acts
        cases same
        rw [Function.update_of_ne apart]
        exact wakeOne_awake .joinTest wakes (busy_awake busy)
    | _ =>
        obtain ⟨_, same⟩ := guarded_eq_some.mp acts
        cases same
        exact Function.update_of_ne apart _ _
  passes t pc shared act next shared' passed free acts passes := by
    have own := passes.free free
    cases act with
    | notifyOne woken =>
        obtain ⟨⟨here, wakes⟩, same⟩ := guarded_eq_some.mp acts
        cases same
        refine ⟨_, guarded_eq_some.mpr ⟨⟨own.trans here, Passed.wakes passes wakes⟩, rfl⟩,
          fun u => ?_⟩
        by_cases self : u = t
        · subst self
          exact ⟨fun _ => by simp, fun busy => absurd free busy⟩
        · simp only [Function.update_of_ne self]
          exact ⟨Passed.woken passes, fun busy =>
            wakeOne_awake .joinTest (Passed.wakes passes wakes) (Passed.awake passes busy)⟩
    | callJoin | callShutdown =>
        obtain ⟨⟨here, fresh⟩, same⟩ := guarded_eq_some.mp acts
        cases same
        exact ⟨_, guarded_eq_some.mpr ⟨⟨own.trans here, fresh⟩, rfl⟩, passes.update free _⟩
    | joinWorker stop worker rest =>
        obtain ⟨⟨here, gone⟩, same⟩ := guarded_eq_some.mp acts
        cases same
        have left := passes.free (u := worker) (congrArg calls gone)
        exact ⟨_, guarded_eq_some.mpr ⟨⟨own.trans here, left.trans gone⟩, rfl⟩,
          passes.update free _⟩
    | _ =>
        obtain ⟨here, same⟩ := guarded_eq_some.mp acts
        cases same
        exact ⟨_, guarded_eq_some.mpr ⟨own.trans here, rfl⟩, passes.update free _⟩

end Machine

/-! The pool over a queue whose critical sections notify in the same step. -/

def opAt : Pc Thread Task → UnboundedBlockingQueue Task → Option (ThreadPool.Op Thread Task)
  | .put parent task, found =>
      some (if (found.put task).2 then .put parent task none else .putRefused parent task)
  | .take, found => match found.take.1 with
      | .value task => some (.take task)
      | .nullopt => some .takeNullopt
      | .waits => none
  | .close, _ => some .close
  | .cancel, _ => some .cancel
  | _, _ => none

def actOf : Act Thread Task → ThreadPool.Op Thread Task
  | .callSubmit parent task => .callSubmit parent task
  | .increment parent task => .increment parent task
  | .finish task threw => .finish task threw
  | .countDown => .countDown
  | .notifyOne woken => .notifyOne woken
  | .callJoin => .callJoin
  | .joinTest => .joinTest
  | .futexWait => .futexWait
  | .spuriousFutex => .spuriousFutex
  | .joinWorker stop worker rest => .joinWorker stop worker rest
  | .joined stop => .joined stop
  | .callShutdown => .callShutdown
  | .store => .store

def labelOf : Thread × AtomicOp (UnboundedBlockingQueue Task) (Pc Thread Task) (Act Thread Task) →
    Option (ThreadPool.Label Thread Task)
  | (t, .own act) => some (t, actOf act)
  | (t, .call pc found) => (opAt pc found).map fun op => (t, op)

def visible (trace : List (Label Thread Task)) : List (ThreadPool.Label Thread Task) :=
  (trace.filterMap shown).filterMap labelOf

def poolOf (a : AtomicState Unit Thread (UnboundedBlockingQueue Task) (Pc Thread Task) Shared) :
    ThreadPool.State Thread Task :=
  { plannedWorkCounter := a.shared.plannedWorkCounter, tasks := a.data ()
    stopCalled := a.shared.stopCalled, pc := a.point }

theorem nobody_parked {pc : Thread → Pc Thread Task} (awake : ∀ u, pc u ≠ .parkedTake)
    (u : Thread) : (pc u).isParkedTake = false := by
  cases asleep : (pc u).isParkedTake with
  | false => rfl
  | true => exact absurd (ThreadPool.parkedTake_of asleep) (awake u)

theorem actOf_goes (act : Act Thread Task) : actOf act ≠ .takeWait := by
  cases act <;> nofun

section Refinement
variable [DecidableEq Thread] [Fintype Thread] [DecidableEq Task] {workers : List Thread}

theorem awake_kept {s after : ThreadPool.State Thread Task} {t : Thread}
    {op : ThreadPool.Op Thread Task} (awake : ∀ u, s.pc u ≠ .parkedTake)
    (taken : ThreadPool.step workers s (t, op) = some after) (goes : op ≠ .takeWait) (u : Thread) :
    after.pc u ≠ .parkedTake := by
  by_cases self : u = t
  · subst self
    obtain ⟨_, zero, there⟩ := ThreadPool.own_step taken
    rw [there]
    cases op with
    | takeWait => exact absurd rfl goes
    | callSubmit parent | put parent | putRefused parent => cases parent <;> nofun
    | joined stop => cases stop <;> nofun
    | _ => cases zero <;> nofun
  · rcases ThreadPool.other_step self taken with same | ⟨asleep, _⟩ | ⟨_, woken⟩
    · rw [same]
      exact awake u
    · exact absurd asleep (awake u)
    · rw [woken]
      nofun

theorem pool_square
    {a next : AtomicState Unit Thread (UnboundedBlockingQueue Task) (Pc Thread Task) Shared}
    {label : Thread × AtomicOp (UnboundedBlockingQueue Task) (Pc Thread Task) (Act Thread Task)}
    (awake : ∀ u, a.point u ≠ .parkedTake)
    (taken : atomicStep (code workers) ClosableQueue.operations a label = some next) :
    ∃ t op, labelOf label = some (t, op) ∧ op ≠ .takeWait ∧
      ThreadPool.step workers (poolOf a) (t, op) = some (poolOf next) := by
  obtain ⟨t, op⟩ := label
  cases op with
  | own act =>
      obtain ⟨_, point, shared, moves, rfl⟩ := own_atomic.mp taken
      refine ⟨t, actOf act, rfl, actOf_goes act, ?_⟩
      cases act <;>
      · obtain ⟨holds, same⟩ := guarded_eq_some.mp moves
        cases same
        exact guarded_eq_some.mpr ⟨holds, rfl⟩
  | call pc found =>
      obtain ⟨here, _, call, made, rfl, ready, rfl⟩ := call_atomic.mp taken
      have nobody := nobody_parked awake
      cases pc with
      | put parent task =>
          cases made
          cases accepted : ((a.data ()).put task).2 with
          | true =>
              refine ⟨t, .put parent task none, by simp [labelOf, opAt, accepted], by simp,
                guarded_eq_some.mpr ⟨⟨here, accepted, nobody⟩, ?_⟩⟩
              simp [poolOf, code, behind, ClosableQueue.operations, ClosableQueue.body, wakeOne]
          | false =>
              refine ⟨t, .putRefused parent task, by simp [labelOf, opAt, accepted], by simp,
                guarded_eq_some.mpr ⟨⟨here, accepted⟩, ?_⟩⟩
              simp [poolOf, code, behind, ClosableQueue.operations, ClosableQueue.body]
      | take =>
          cases made
          cases result : (a.data ()).take.1 with
          | waits => cases ready.symm.trans ((ClosableQueue.waits_take _).mpr result)
          | value task =>
              refine ⟨t, .take task, by simp [labelOf, opAt, result], by simp,
                guarded_eq_some.mpr ⟨⟨here, result⟩, ?_⟩⟩
              simp [poolOf, code, behind, ClosableQueue.operations, ClosableQueue.body,
                ClosableQueue.optional, result]
          | nullopt =>
              refine ⟨t, .takeNullopt, by simp [labelOf, opAt, result], by simp,
                guarded_eq_some.mpr ⟨⟨here, result⟩, ?_⟩⟩
              simp [poolOf, code, behind, ClosableQueue.operations, ClosableQueue.body,
                ClosableQueue.optional, result]
              exact (UnboundedBlockingQueue.take_drained
                (UnboundedBlockingQueue.take_nullopt result).2).symm
      | close | cancel =>
          cases made
          refine ⟨t, _, rfl, by simp, guarded_eq_some.mpr ⟨here, ?_⟩⟩
          simp [poolOf, code, behind, ClosableQueue.operations, ClosableQueue.body,
            wakeAll_awake nobody]
      | _ => cases made

variable {s : State Thread Task} {trace : List (Label Thread Task)}

theorem reaches_pool (reached : Reaches (step workers) unrestricted (init workers) trace s) :
    Reaches (ThreadPool.step workers) unrestricted (ThreadPool.init workers) (visible trace)
      (poolOf (s.abstract (code workers))) ∧
    ∀ u, (s.abstract (code workers)).point u ≠ .parkedTake := by
  have start (u : Thread) : (if u ∈ workers then .take else .outside : Pc Thread Task) ≠
      .parkedTake := by
    by_cases member : u ∈ workers <;> simp [member]
  obtain ⟨_, run, rfl, awake⟩ := (reaches_atomic code_lawful reached).simulates labelOf
    (fun a p => poolOf a = p ∧ ∀ u, a.point u ≠ .parkedTake) ⟨rfl, start⟩
    fun a label next p related _ taken => by
      obtain ⟨rfl, awake⟩ := related
      obtain ⟨t, op, shown, goes, moved⟩ := pool_square awake taken
      exact .inr ⟨(t, op), _, shown, moved, rfl, awake_kept awake moved goes⟩
  exact ⟨run, awake⟩

def starts : Act Thread Task → Bool
  | .callSubmit _ _ | .callJoin | .callShutdown | .spuriousFutex => true
  | _ => false

/-- Every step that can be taken begins a Submit, a Join or a Shutdown or is a spurious
wake-up. -/
def Idle (workers : List Thread) (s : State Thread Task) : Prop :=
  MonitorClients.Idle (code workers) ClosableQueue.operations starts s

theorem idle_resting (reached : Reaches (step workers) unrestricted (init workers) trace s)
    (idle : Idle workers s) : ThreadPool.Resting (poolOf (s.abstract (code workers))) := by
  intro t
  obtain ⟨_, awake⟩ := reaches_pool reached
  have able {next}
      (op : AtomicOp (UnboundedBlockingQueue Task) (Pc Thread Task) (Act Thread Task))
      (goesOn : op.goesOn starts = true)
      (taken : atomicStep (code workers) ClosableQueue.operations (s.abstract (code workers))
        (t, op) = some next) : False := by
    have blocked := idle_blocked code_lawful (fun _ => ClosableQueue.attentive) reached idle t op
      goesOn
    cases taken.symm.trans blocked
  have acts {pc shared} (act : Act Thread Task) (quiet : starts act = false)
      (free : calls ((s.abstract (code workers)).point t) = none)
      (moves : own t (s.abstract (code workers)).point s.shared act = some (pc, shared)) : False :=
    able (.own act) (by rw [AtomicOp.goesOn, quiet]; rfl) (own_atomic.mpr ⟨free, _, _, moves, rfl⟩)
  cases here : (poolOf (s.abstract (code workers))).pc t with
  | outside | exited | futexParked | stopped => trivial
  | parkedTake => exact absurd here (awake t)
  | increment parent task =>
      exact acts (.increment parent task) rfl (congrArg calls here)
        (guarded_eq_some.mpr ⟨here, rfl⟩)
  | executing task =>
      exact acts (.finish task false) rfl (congrArg calls here) (guarded_eq_some.mpr ⟨here, rfl⟩)
  | countDown => exact acts .countDown rfl (congrArg calls here) (guarded_eq_some.mpr ⟨here, rfl⟩)
  | notifyOne =>
      obtain ⟨woken, wakes⟩ := wakes_exists Pc.isFutexParked (s.abstract (code workers)).point
      exact acts (.notifyOne woken) rfl (congrArg calls here)
        (guarded_eq_some.mpr ⟨⟨here, wakes⟩, rfl⟩)
  | joinTest => exact acts .joinTest rfl (congrArg calls here) (guarded_eq_some.mpr ⟨here, rfl⟩)
  | futexWait => exact acts .futexWait rfl (congrArg calls here) (guarded_eq_some.mpr ⟨here, rfl⟩)
  | store => exact acts .store rfl (congrArg calls here) (guarded_eq_some.mpr ⟨here, rfl⟩)
  | joining stop rest =>
      cases rest with
      | nil =>
          exact acts (.joined stop) rfl (congrArg calls here) (guarded_eq_some.mpr ⟨here, rfl⟩)
      | cons worker rest =>
          intro gone
          exact acts (.joinWorker stop worker rest) rfl (congrArg calls here)
            (guarded_eq_some.mpr ⟨⟨here, gone⟩, rfl⟩)
  | put parent task =>
      exact able (.call (.put parent task) _) rfl
        (call_atomic.mpr ⟨here, (), .put task, rfl, rfl, rfl, rfl⟩)
  | close =>
      exact able (.call .close _) rfl (call_atomic.mpr ⟨here, (), .close, rfl, rfl, rfl, rfl⟩)
  | cancel =>
      exact able (.call .cancel _) rfl (call_atomic.mpr ⟨here, (), .cancel, rfl, rfl, rfl, rfl⟩)
  | take =>
      by_contra there
      have ready : ClosableQueue.waits .take (s.monitor ()).data = false :=
        Bool.eq_false_iff.mpr fun blocked => there ((ClosableQueue.waits_take _).mp blocked)
      exact able (.call .take _) rfl (call_atomic.mpr ⟨here, (), .take, rfl, rfl, ready, rfl⟩)

/-- Over the monitor of its queue the pool does what it does where a critical section and its
notification are a single step. Where nobody can go on inside the monitor, everybody in the
pool waits for something that has not happened. -/
theorem refines_thread_pool
    (reached : Reaches (step workers) unrestricted (init workers) trace s) :
    Reaches (ThreadPool.step workers) unrestricted (ThreadPool.init workers) (visible trace)
      (poolOf (s.abstract (code workers))) ∧
    (Idle workers s → ThreadPool.Resting (poolOf (s.abstract (code workers)))) :=
  ⟨(reaches_pool reached).1, idle_resting reached⟩

/-- However the threads are scheduled and whom the queue notifies, no task is left behind: where
nobody can go on, the queue is empty, the tasks that were started are finished, and so are,
unless the pool was shut down, all that were submitted and not refused. Whoever called Join or
Shutdown has returned or sleeps on the futex. -/
theorem pool_settles (staffed : workers ≠ [])
    (reached : Reaches (step workers) unrestricted (init workers) trace s)
    (idle : Idle workers s) :
    (s.monitor ()).data.queue = [] ∧
    (ThreadPool.started (visible trace)).Perm (ThreadPool.finished (visible trace)) ∧
    ((∀ label ∈ visible trace, label.2 ≠ .callShutdown) →
      (ThreadPool.submitted (visible trace)).Perm
        (ThreadPool.finished (visible trace) ++ ThreadPool.refused (visible trace))) ∧
    ∀ j, (s.standing (code workers) j).stopping = true →
      s.standing (code workers) j = .stopped ∨ s.standing (code workers) j = .futexParked := by
  obtain ⟨w, member⟩ := List.exists_mem_of_ne_nil workers staffed
  have run := (reaches_pool reached).1
  have resting := idle_resting reached idle
  obtain ⟨finished, submitted⟩ := ThreadPool.resting_finished run resting member
  exact ⟨(ThreadPool.resting_drained run resting member).1, finished, submitted,
    ThreadPool.resting_stopper run resting⟩

end Refinement
section Examples

abbrev QueueOp := Monitor.Op Bool (UnboundedBlockingQueue ℕ) (ClosableQueue.Call ℕ)
  (ClosableQueue.Result ℕ)

def queueCall (call : ClosableQueue.Call ℕ) (found : UnboundedBlockingQueue ℕ)
    (notify : List QueueOp) (result : ClosableQueue.Result ℕ) : List QueueOp :=
  [.invoke call, .lock call, .pass call, .act call found] ++ notify ++ [.unlock result]

def within (t : Bool) (pc : Pc Bool ℕ) (ops : List QueueOp) : List (Label Bool ℕ) :=
  ops.map fun op => (t, .within pc op)

/-- The one worker parks after a task; Join closes the queue and waits for it. -/
def submitsOnce : List (Label Bool ℕ) :=
  [(true, .own (.callSubmit none 7)), (true, .own (.increment none 7))] ++
  within true (.put none 7) (queueCall (.put 7) ⟨false, []⟩ [.notifyOne (.put true) none]
    (.put true)) ++
  within false .take (queueCall .take ⟨false, [7]⟩ [] (.take (some 7))) ++
  [(false, .own (.finish 7 true)), (false, .own .countDown), (false, .own (.notifyOne none))] ++
  within false .take [.invoke .take, .lock .take, .wait .take] ++
  [(true, .own .callJoin), (true, .own .joinTest)] ++
  within true .close (queueCall .close ⟨false, []⟩ [.notifyAll .closed] .closed) ++
  within false .take [.relock .take true, .pass .take, .act .take ⟨true, []⟩,
    .unlock (.take none)] ++
  [(true, .own (.joinWorker .join false [])), (true, .own (.joined .join))]

theorem submitsOnce_settled :
    ∃ s, Reaches (step [false]) unrestricted (init [false]) submitsOnce s ∧ Idle [false] s := by
  have ran : run (step [false]) (init [false]) submitsOnce = some _ := rfl
  refine ⟨_, run_free ran, idle_of_threads fun t => .inl ?_⟩
  cases t with
  | false | true => exact ⟨rfl, fun act quiet => by cases act <;> first | rfl | cases quiet⟩

theorem refines_thread_pool_once :
    ∃ s : State Bool ℕ, run (step [false]) (init [false]) submitsOnce = some s ∧
      Reaches (ThreadPool.step [false]) unrestricted (ThreadPool.init [false])
        (visible submitsOnce) (poolOf (s.abstract (code [false]))) ∧
      ThreadPool.Resting (poolOf (s.abstract (code [false]))) := by
  obtain ⟨s, reached, idle⟩ := submitsOnce_settled
  obtain ⟨abstract, resting⟩ := refines_thread_pool reached
  exact ⟨s, reached.runs, abstract, resting idle⟩

theorem pool_settles_once :
    ∃ s : State Bool ℕ, run (step [false]) (init [false]) submitsOnce = some s ∧
      (s.monitor ()).data.queue = [] ∧ (ThreadPool.finished (visible submitsOnce)).Perm [7] := by
  obtain ⟨s, reached, idle⟩ := submitsOnce_settled
  obtain ⟨drained, finished, _⟩ := pool_settles (by simp) reached idle
  exact ⟨s, reached.runs, drained, finished.symm⟩

end Examples
end ConcurrencyCourse.MonitoredPool
