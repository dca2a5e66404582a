import ConcurrencyCourse.MonitorClients
import ConcurrencyCourse.QueueTraffic

/-!
The bounded `BlockingQueue` of tasks/condvar/semaphore over the `Semaphore` of the same
directory: three monitors, each with a mutex and a condition variable of its own, and the
deque `buffer_`, on which Put and Take work between the calls of the semaphores. Over the
monitors the queue does what it does where each call of a semaphore is a single step.
-/

namespace ConcurrencyCourse.MonitoredQueue

open Interleaving MonitorClients
open SemaphoreQueue (Pc)

inductive Permits where
  | mutex
  | isEmpty
  | isFull
  deriving DecidableEq

inductive Act (T : Type) where
  | callPut (value : T)
  | emplaceBack (value : T)
  | callTake
  | front (result : T)
  | popFront (result : T)

variable {Thread T : Type}

def calls : Pc T → Option (Permits × Semaphore.Call)
  | .putAcquireFull _ => some (.isFull, .acquire)
  | .putAcquireMutex _ => some (.mutex, .acquire)
  | .putReleaseMutex => some (.mutex, .release)
  | .releaseEmpty => some (.isEmpty, .release)
  | .takeAcquireEmpty => some (.isEmpty, .acquire)
  | .takeAcquireMutex => some (.mutex, .acquire)
  | .takeReleaseMutex _ => some (.mutex, .release)
  | .releaseFull _ => some (.isFull, .release)
  | .outside | .emplaceBack _ | .front | .popFront _ => none

def behind : Pc T → Pc T
  | .putAcquireFull value => .putAcquireMutex value
  | .putAcquireMutex value => .emplaceBack value
  | .putReleaseMutex => .releaseEmpty
  | .takeAcquireEmpty => .takeAcquireMutex
  | .takeAcquireMutex => .front
  | .takeReleaseMutex result => .releaseFull result
  | .releaseEmpty | .releaseFull _ => .outside
  | pc => pc

section Machine
variable [DecidableEq T]

def own (pc : Pc T) (buffer : List T) : Act T → Option (Pc T × List T)
  | .callPut value => guarded (pc = .outside) (.putAcquireFull value, buffer)
  | .emplaceBack value => guarded (pc = .emplaceBack value) (.putReleaseMutex, buffer ++ [value])
  | .callTake => guarded (pc = .outside) (.takeAcquireEmpty, buffer)
  -- front() of an empty deque is undefined, so there is no step for it.
  | .front result => guarded (pc = .front ∧ buffer.head? = some result)
      (.popFront result, buffer)
  | .popFront result => guarded (pc = .popFront result) (.takeReleaseMutex result, buffer.tail)

def code [DecidableEq Thread] :
    Code Permits Thread Semaphore.Call Unit (Pc T) (List T) (Act T) :=
  .alone calls (fun pc _ => behind pc) own

abbrev State (Thread T : Type) :=
  MonitorClients.State Permits Thread UInt64 Semaphore.Call Unit (Pc T) (List T)

abbrev Label (Thread T : Type) :=
  Thread × MonitorClients.Op Thread UInt64 Semaphore.Call Unit (Pc T) (Act T)

def permits (capacity : UInt64) : Permits → UInt64
  | .mutex => 1
  | .isEmpty => 0
  | .isFull => capacity

def init (capacity : UInt64) : State Thread T :=
  MonitorClients.init [] (permits capacity) fun _ => .outside

variable [Fintype Thread] [DecidableEq Thread]

def step : State Thread T → Label Thread T → Option (State Thread T) :=
  MonitorClients.step code Semaphore.operations

end Machine

/-! The queue over semaphores whose operations are single steps. -/

def opAt : Pc T → Option (SemaphoreQueue.Op T)
  | .putAcquireFull value => some (.putAcquireFull value)
  | .putAcquireMutex value => some (.putAcquireMutex value)
  | .putReleaseMutex => some .putReleaseMutex
  | .releaseEmpty => some .releaseEmpty
  | .takeAcquireEmpty => some .takeAcquireEmpty
  | .takeAcquireMutex => some .takeAcquireMutex
  | .takeReleaseMutex result => some (.takeReleaseMutex result)
  | .releaseFull result => some (.releaseFull result)
  | .outside | .emplaceBack _ | .front | .popFront _ => none

def labelOf : Thread × AtomicOp UInt64 (Pc T) (Act T) → Option (SemaphoreQueue.Label Thread T)
  | (t, .own (.callPut value)) => some (t, .callPut value)
  | (t, .own (.emplaceBack value)) => some (t, .emplaceBack value)
  | (t, .own .callTake) => some (t, .callTake)
  | (t, .own (.front result)) => some (t, .front result)
  | (t, .own (.popFront result)) => some (t, .popFront result)
  | (t, .call pc _) => (opAt pc).map fun op => (t, op)

def visible (trace : List (Label Thread T)) : List (SemaphoreQueue.Label Thread T) :=
  (trace.filterMap shown).filterMap labelOf

def queueOf (s : AtomicState Permits Thread UInt64 (Pc T) (List T)) :
    SemaphoreQueue.State Thread T :=
  { buffer := s.shared, mutex := s.data .mutex, isEmpty := s.data .isEmpty
    isFull := s.data .isFull, pc := s.point }

section Refinement
variable [DecidableEq Thread] [DecidableEq T]

theorem queue_square {a next : AtomicState Permits Thread UInt64 (Pc T) (List T)}
    {label : Thread × AtomicOp UInt64 (Pc T) (Act T)}
    (taken : atomicStep code Semaphore.operations a label = some next) :
    ∃ visible, labelOf label = some visible ∧
      SemaphoreQueue.step (queueOf a) visible = some (queueOf next) := by
  obtain ⟨t, op⟩ := label
  cases op with
  | own act =>
      obtain ⟨_, point, buffer, moves, rfl⟩ := own_atomic.mp taken
      obtain ⟨pc, acts, rfl⟩ := Code.alone_own.mp moves
      cases act with
      | front result =>
          obtain ⟨⟨here, head⟩, same⟩ := guarded_eq_some.mp acts
          cases same
          exact ⟨_, rfl, guarded_eq_some.mpr ⟨⟨here, head⟩, rfl⟩⟩
      | _ =>
          obtain ⟨here, same⟩ := guarded_eq_some.mp acts
          cases same
          exact ⟨_, rfl, guarded_eq_some.mpr ⟨here, rfl⟩⟩
  | call pc found =>
      obtain ⟨here, sem, call, made, rfl, ready, rfl⟩ := call_atomic.mp taken
      cases pc with
      | outside | emplaceBack | front | popFront => cases made
      | putReleaseMutex | releaseEmpty | takeReleaseMutex | releaseFull =>
          cases made
          refine ⟨_, rfl, guarded_eq_some.mpr ⟨here, ?_⟩⟩
          simp [queueOf, code, Code.alone, behind, Semaphore.operations, Semaphore.body,
            Semaphore.release]
      | _ =>
          cases made
          refine ⟨_, rfl, SemaphoreQueue.acquired.mpr ⟨Semaphore.acquire_ready ready, here, ?_⟩⟩
          simp [queueOf, code, Code.alone, behind, Semaphore.operations, Semaphore.body]

variable [Fintype Thread] {capacity : UInt64} {s : State Thread T} {trace : List (Label Thread T)}

theorem reaches_queue (reached : Reaches step unrestricted (init capacity) trace s) :
    Reaches SemaphoreQueue.step unrestricted (SemaphoreQueue.init capacity) (visible trace)
      (queueOf (s.abstract code)) := by
  obtain ⟨_, run, rfl⟩ := (reaches_atomic Code.alone_lawful reached).simulates labelOf
    (fun a q => queueOf a = q) rfl fun a label next q same _ taken => by
      obtain ⟨visible, shown, moved⟩ := queue_square taken
      exact .inr ⟨visible, queueOf next, shown, same ▸ moved, rfl⟩
  exact run

def starts : Act T → Bool
  | .callPut _ | .callTake => true
  | _ => false

/-- Every step that can be taken is the beginning of a Put or a Take or a spurious
wake-up. -/
def Idle (s : State Thread T) : Prop := MonitorClients.Idle code Semaphore.operations starts s

theorem acquire_passes {counter : UInt64} (free : counter ≠ 0) :
    Semaphore.waits .acquire counter = false :=
  Bool.eq_false_iff.mpr fun blocked => free (Semaphore.waits_zero blocked).2

theorem idle_stuck (reached : Reaches step unrestricted (init capacity) trace s)
    (idle : Idle s) : SemaphoreQueue.Stuck (queueOf (s.abstract code)) := by
  intro t inside
  have inv := SemaphoreQueue.inv (reaches_queue reached)
  have able {next} (op : AtomicOp UInt64 (Pc T) (Act T)) (goesOn : op.goesOn starts = true)
      (taken : atomicStep code Semaphore.operations (s.abstract code) (t, op) = some next) :
      False := by
    have blocked := idle_blocked Code.alone_lawful (fun _ => Semaphore.attentive _)
      reached idle t op goesOn
    cases taken.symm.trans blocked
  have acts {pc buffer} (act : Act T) (quiet : starts act = false)
      (free : calls ((s.abstract code).point t) = none)
      (moves : own ((s.abstract code).point t) s.shared act = some (pc, buffer)) : False :=
    able (.own act) (by rw [AtomicOp.goesOn, quiet]; rfl)
      (own_atomic.mpr ⟨free, _, _, Code.alone_own.mpr ⟨_, moves, rfl⟩, rfl⟩)
  cases here : (queueOf (s.abstract code)).pc t with
  | outside => exact absurd here inside
  | putAcquireFull | putAcquireMutex | takeAcquireEmpty | takeAcquireMutex =>
      by_contra free
      exact able (.call _ _) rfl
        (call_atomic.mpr ⟨here, _, .acquire, rfl, rfl, acquire_passes free, rfl⟩)
  | putReleaseMutex | releaseEmpty | takeReleaseMutex | releaseFull =>
      exact able (.call _ _) rfl (call_atomic.mpr ⟨here, _, .release, rfl, rfl, rfl, rfl⟩)
  | emplaceBack value =>
      exact acts (.emplaceBack value) rfl (congrArg calls here)
        (guarded_eq_some.mpr ⟨here, rfl⟩)
  | popFront result =>
      exact acts (.popFront result) rfl (congrArg calls here) (guarded_eq_some.mpr ⟨here, rfl⟩)
  | front =>
      have filled := SemaphoreQueue.reserved_nonempty inv (t := t) (by rw [here]; rfl)
      obtain ⟨result, rest, content⟩ := List.exists_cons_of_ne_nil filled
      have head : s.shared.head? = some result := congrArg List.head? content
      exact acts (.front result) rfl (congrArg calls here)
        (guarded_eq_some.mpr ⟨⟨here, head⟩, rfl⟩)

/-- Over the monitors of its semaphores the queue does what it does where each call of a
semaphore is a single step. Where nobody can go on inside the monitors, every thread inside
Put or Take stands before an Acquire that cannot proceed. -/
theorem refines_semaphore_queue (reached : Reaches step unrestricted (init capacity) trace s) :
    Reaches SemaphoreQueue.step unrestricted (SemaphoreQueue.init capacity) (visible trace)
      (queueOf (s.abstract code)) ∧
    (Idle s → SemaphoreQueue.Stuck (queueOf (s.abstract code))) :=
  ⟨reaches_queue reached, idle_stuck reached⟩

end Refinement

/-! How many steps Put and Take make, those inside the monitors included. -/

/-- Seven steps for each Acquire that is still to come, nine for each Release, one for each
access to `buffer_`. -/
def price : Pc T → ℕ
  | .outside => 0
  | .putAcquireFull _ => 33
  | .putAcquireMutex _ => 26
  | .emplaceBack _ => 19
  | .putReleaseMutex => 18
  | .releaseEmpty => 9
  | .takeAcquireEmpty => 34
  | .takeAcquireMutex => 27
  | .front => 20
  | .popFront _ => 19
  | .takeReleaseMutex _ => 18
  | .releaseFull _ => 9

def fee : Act T → ℕ
  | .callPut _ => 34
  | .callTake => 35
  | _ => 0

theorem own_priced [DecidableEq T] {pc next : Pc T} {buffer after : List T} {act : Act T}
    (acts : own pc buffer act = some (next, after)) : price next + 1 ≤ price pc + fee act := by
  cases act with
  | front result =>
      obtain ⟨⟨rfl, _⟩, same⟩ := guarded_eq_some.mp acts
      cases same
      exact le_rfl
  | _ =>
      obtain ⟨rfl, same⟩ := guarded_eq_some.mp acts
      cases same
      exact le_rfl

theorem priced [DecidableEq Thread] [DecidableEq T] :
    Priced (code : Code Permits Thread Semaphore.Call Unit (Pc T) (List T) (Act T))
      Semaphore.wakes price fee where
  call pc sem call result made := by
    cases pc <;> cases made <;> exact le_rfl
  own t point buffer act next after moves := by
    obtain ⟨pc, acts, rfl⟩ := Code.alone_own.mp moves
    refine ⟨?_, fun u other => ?_⟩
    · rw [Function.update_self]
      exact own_priced acts
    · rw [Function.update_of_ne other]

theorem fees_label (label : Label Thread T) :
    fees fee label =
      34 * SemaphoreQueue.calledPuts ((shown label).bind labelOf).toList +
        35 * SemaphoreQueue.calledTakes ((shown label).bind labelOf).toList +
        3 * (isSpurious label).toNat := by
  obtain ⟨t, op⟩ := label
  cases op with
  | own act => cases act <;> rfl
  | within pc op =>
      cases op with
      | act call found => cases pc <;> rfl
      | _ => rfl

theorem fees_called (trace : List (Label Thread T)) :
    (trace.map (fees fee)).sum = 34 * SemaphoreQueue.calledPuts (visible trace) +
      35 * SemaphoreQueue.calledTakes (visible trace) + 3 * spurious trace := by
  induction trace with
  | nil => rfl
  | cons label rest ih =>
      have seen : visible (label :: rest) =
          ((shown label).bind labelOf).toList ++ visible rest := by
        cases first : shown label with
        | none => simp [visible, first]
        | some made => cases second : labelOf made <;> simp [visible, first, second]
      have mine := fees_label label
      simp only [SemaphoreQueue.calledPuts, SemaphoreQueue.calledTakes, spurious] at ih mine ⊢
      rw [seen, List.map_cons, List.sum_cons, ih, mine, List.countP_append, List.countP_append,
        List.countP_cons]
      cases isSpurious label <;> simp <;> omega

section Traffic
variable [DecidableEq Thread] [Fintype Thread] [DecidableEq T] {capacity : UInt64}
  {s : State Thread T} {trace : List (Label Thread T)}

/-- In a queue with a place or more, however the threads are scheduled and woken, they make
altogether at most 34 steps for each Put that was called, 35 for each Take and three for each
spurious wake-up; one call may make more when others overtake it. Where nobody can go on, as
many elements came out as there were Takes and elements for them, and as many went in as
there were Puts and places for them. -/
theorem traffic_settles (positive : 0 < capacity)
    (reached : Reaches step unrestricted (init capacity) trace s) :
    trace.length ≤ 34 * SemaphoreQueue.calledPuts (visible trace) +
        35 * SemaphoreQueue.calledTakes (visible trace) + 3 * spurious trace ∧
      (Idle s →
        (SemaphoreQueue.popped (visible trace)).length =
          min (SemaphoreQueue.calledTakes (visible trace))
            (SemaphoreQueue.calledPuts (visible trace)) ∧
        (SemaphoreQueue.pushed (visible trace)).length =
          min (SemaphoreQueue.calledPuts (visible trace))
            (SemaphoreQueue.calledTakes (visible trace) + capacity.toNat)) := by
  constructor
  · rw [← fees_called]
    exact length_le_fees Code.alone_lawful priced (Semaphore.notifies _) (fun _ => rfl) reached
  · intro idle
    exact SemaphoreQueue.stuck_traffic positive (reaches_queue reached) (idle_stuck reached idle)

end Traffic

section Examples

def acquires (t : Bool) (pc : Pc ℕ) (found : UInt64) : List (Label Bool ℕ) :=
  [(t, .within pc (.invoke .acquire)), (t, .within pc (.lock .acquire)),
    (t, .within pc (.pass .acquire)), (t, .within pc (.act .acquire found)),
    (t, .within pc (.unlock ()))]

def releases (t : Bool) (pc : Pc ℕ) (found : UInt64) (woken : Option Bool) :
    List (Label Bool ℕ) :=
  [(t, .within pc (.invoke .release)), (t, .within pc (.lock .release)),
    (t, .within pc (.pass .release)), (t, .within pc (.act .release found)),
    (t, .within pc (.notifyOne () woken)), (t, .within pc (.unlock ()))]

/-- A Take parks, a Put wakes it, and a second Take parks for good. -/
def twoTakes : List (Label Bool ℕ) :=
  [(false, .own .callTake), (false, .within .takeAcquireEmpty (.invoke .acquire)),
    (false, .within .takeAcquireEmpty (.lock .acquire)),
    (false, .within .takeAcquireEmpty (.wait .acquire)), (true, .own (.callPut 7))] ++
  acquires true (.putAcquireFull 7) 1 ++ acquires true (.putAcquireMutex 7) 1 ++
  [(true, .own (.emplaceBack 7))] ++ releases true .putReleaseMutex 0 none ++
  releases true .releaseEmpty 0 (some false) ++
  [(false, .within .takeAcquireEmpty (.relock .acquire true)),
    (false, .within .takeAcquireEmpty (.pass .acquire)),
    (false, .within .takeAcquireEmpty (.act .acquire 1)),
    (false, .within .takeAcquireEmpty (.unlock ()))] ++
  acquires false .takeAcquireMutex 1 ++ [(false, .own (.front 7)), (false, .own (.popFront 7))] ++
  releases false (.takeReleaseMutex 7) 0 none ++ releases false (.releaseFull 7) 0 none ++
  [(false, .own .callTake), (false, .within .takeAcquireEmpty (.invoke .acquire)),
    (false, .within .takeAcquireEmpty (.lock .acquire)),
    (false, .within .takeAcquireEmpty (.wait .acquire))]

theorem twoTakes_settled :
    ∃ s, Reaches step unrestricted (init 1) twoTakes s ∧ Idle s := by
  have ran : run step (init 1) twoTakes = some _ := rfl
  refine ⟨_, run_free ran, idle_of_threads fun t => ?_⟩
  cases t with
  | false => exact .inr ⟨.isEmpty, .acquire, rfl, rfl⟩
  | true => exact .inl ⟨rfl, fun act quiet => by cases act <;> first | rfl | cases quiet⟩

theorem refines_semaphore_queue_two_takes :
    ∃ s : State Bool ℕ, run step (init 1) twoTakes = some s ∧
      Reaches SemaphoreQueue.step unrestricted (SemaphoreQueue.init 1) (visible twoTakes)
        (queueOf (s.abstract code)) ∧
      SemaphoreQueue.Stuck (queueOf (s.abstract code)) := by
  obtain ⟨s, reached, idle⟩ := twoTakes_settled
  obtain ⟨abstract, stuck⟩ := refines_semaphore_queue reached
  exact ⟨s, reached.runs, abstract, stuck idle⟩

/-- One element came out, and the second Take is left parked. -/
theorem traffic_settles_two_takes :
    ∃ s : State Bool ℕ, run step (init 1) twoTakes = some s ∧ twoTakes.length ≤ 104 ∧
      (SemaphoreQueue.popped (visible twoTakes)).length = min 2 1 ∧
      (SemaphoreQueue.pushed (visible twoTakes)).length = min 1 (2 + 1) := by
  obtain ⟨s, reached, idle⟩ := twoTakes_settled
  obtain ⟨bound, settled⟩ := traffic_settles (by decide) reached
  exact ⟨s, reached.runs, bound, settled idle⟩

end Examples
end ConcurrencyCourse.MonitoredQueue
