import ConcurrencyCourse.BlockingQueue
import ConcurrencyCourse.MonitorProgress

/-!
`tp::UnboundedBlockingQueue` as its clients use it: a monitor whose bodies are the
critical sections of Put, Take, Close and Cancel. A Take that was notified may be
overtaken, find the queue empty again and wait again.
-/

namespace ConcurrencyCourse.ClosableQueue

open Interleaving Headcount Monitor BlockingQueue

inductive Call (T : Type) where
  | put (value : T)
  | take
  | close
  | cancel
  deriving DecidableEq

inductive Result (T : Type) where
  | put (accepted : Bool)
  | take (result : Option T)
  | closed
  deriving DecidableEq

deriving instance DecidableEq for UnboundedBlockingQueue

variable {T : Type}

def waits : Call T → UnboundedBlockingQueue T → Bool
  | .take, tasks => !tasks.isClosed && tasks.queue.isEmpty
  | _, _ => false

def optional : Taken T → Option T
  | .value result => some result
  | _ => none

def body : Call T → UnboundedBlockingQueue T → Outcome (UnboundedBlockingQueue T) (Result T)
  | .put value, tasks =>
      { data := (tasks.put value).1, result := .put (tasks.put value).2,
        notify := if (tasks.put value).2 then some .one else none }
  | .take, tasks =>
      { data := tasks.take.2, result := .take (optional tasks.take.1), notify := none }
  | .close, tasks => { data := tasks.close, result := .closed, notify := some .all }
  | .cancel, tasks => { data := tasks.cancel, result := .closed, notify := some .all }

def operations : Operations (UnboundedBlockingQueue T) (Call T) (Result T) :=
  { waits := waits, body := body }

theorem waits_take (tasks : UnboundedBlockingQueue T) :
    waits .take tasks = true ↔ tasks.take.1 = .waits := by
  cases content : tasks.queue <;> cases closed : tasks.isClosed <;>
    simp [waits, UnboundedBlockingQueue.take, content, closed]

theorem waits_call {call : Call T} {tasks : UnboundedBlockingQueue T}
    (blocked : waits call tasks = true) :
    call = .take ∧ tasks.isClosed = false ∧ tasks.queue = [] := by
  cases call with
  | take =>
      simp only [waits, Bool.and_eq_true, Bool.not_eq_true', List.isEmpty_iff] at blocked
      exact ⟨rfl, blocked⟩
  | _ => cases blocked

/-! What a history of critical sections has done with the values. -/

abbrev Entry (T : Type) := Call T × UnboundedBlockingQueue T

def acceptOf : Entry T → Option T
  | (.put value, found) => if (found.put value).2 then some value else none
  | _ => none

def popOf : Entry T → Option T
  | (.take, found) => optional found.take.1
  | _ => none

def discardOf : Entry T → List T
  | (.cancel, found) => found.queue
  | _ => []

def closes : Entry T → Bool
  | (.close, _) | (.cancel, _) => true
  | _ => false

def accepted (history : List (Entry T)) : List T := history.filterMap acceptOf

def popped (history : List (Entry T)) : List T := history.filterMap popOf

/-- What the first Cancel that found any values has discarded. -/
def discarded (history : List (Entry T)) : List T :=
  ((history.map discardOf).find? fun values => !values.isEmpty).getD []

theorem discarded_next (history : List (Entry T)) (entry : Entry T) :
    discarded (history ++ [entry]) =
      if (discarded history).isEmpty then discardOf entry else discarded history := by
  simp only [discarded, List.map_append, List.map_cons, List.map_nil, List.find?_append]
  rcases Option.eq_none_or_eq_some ((history.map discardOf).find? fun values => !values.isEmpty)
    with none' | ⟨values, found⟩
  · simp [none']
    cases discardOf entry <;> rfl
  · have some' := List.find?_some found
    simp only [Bool.not_eq_true'] at some'
    simp [found, some']

theorem body_closed (call : Call T) (found : UnboundedBlockingQueue T) :
    (body call found).data.isClosed = (found.isClosed || closes (call, found)) := by
  cases call with
  | put value =>
      cases closed : found.isClosed <;> simp [body, closes, UnboundedBlockingQueue.put, closed]
  | take =>
      cases content : found.queue <;> simp [body, closes, UnboundedBlockingQueue.take, content]
  | close => simp [body, closes, UnboundedBlockingQueue.close, UnboundedBlockingQueue.closeImpl]
  | cancel => simp [body, closes, UnboundedBlockingQueue.cancel, UnboundedBlockingQueue.closeImpl]

theorem body_balance (call : Call T) (found : UnboundedBlockingQueue T) :
    found.queue ++ (acceptOf (call, found)).toList =
      (popOf (call, found)).toList ++ discardOf (call, found) ++ (body call found).data.queue := by
  cases call with
  | put value =>
      cases closed : found.isClosed <;>
        simp [body, acceptOf, popOf, discardOf, UnboundedBlockingQueue.put, closed]
  | take =>
      cases content : found.queue <;> cases closed : found.isClosed <;>
        simp [body, acceptOf, popOf, discardOf, UnboundedBlockingQueue.take, optional, content,
          closed]
  | close =>
      simp [body, acceptOf, popOf, discardOf, UnboundedBlockingQueue.close,
        UnboundedBlockingQueue.closeImpl]
  | cancel =>
      simp [body, acceptOf, popOf, discardOf, UnboundedBlockingQueue.cancel,
        UnboundedBlockingQueue.closeImpl]

theorem body_ended {found : UnboundedBlockingQueue T} (call : Call T)
    (closed : found.isClosed = true) (drained : found.queue = []) :
    (body call found).data = found ∧ acceptOf (call, found) = none ∧
      popOf (call, found) = none ∧ discardOf (call, found) = [] := by
  cases found
  cases closed
  cases drained
  cases call <;> exact ⟨rfl, rfl, rfl, rfl⟩

theorem discard_ends {call : Call T} {found : UnboundedBlockingQueue T}
    (some' : discardOf (call, found) ≠ []) :
    (body call found).data.isClosed = true ∧ (body call found).data.queue = [] := by
  cases call with
  | cancel => exact ⟨rfl, rfl⟩
  | _ => exact absurd rfl some'

theorem take_none {found : UnboundedBlockingQueue T} (ready : waits .take found = false)
    (ended : optional found.take.1 = none) :
    found.isClosed = true ∧ found.queue = [] := by
  cases result : found.take.1 with
  | waits => simp [(waits_take found).mpr result] at ready
  | nullopt => exact UnboundedBlockingQueue.take_nullopt result
  | value own => simp [result, optional] at ended

section History
variable [DecidableEq T] {history : List (Entry T)} {tasks after : UnboundedBlockingQueue T}
  {call : Call T} {found : UnboundedBlockingQueue T}

theorem entry_step (taken : atomic operations tasks (call, found) = some after) :
    tasks = found ∧ waits call found = false ∧ (body call found).data = after := by
  rcases guarded_eq_some.mp taken with ⟨⟨same, ready⟩, moved⟩
  exact ⟨same, ready, moved⟩

theorem closed_history (reached : Reaches (atomic operations) unrestricted empty history tasks) :
    tasks.isClosed = history.any closes := by
  induction reached with
  | start => rfl
  | next entry _ _ taken ih =>
      rcases entry with ⟨call, found⟩
      rcases entry_step taken with ⟨rfl, _, rfl⟩
      rw [body_closed, ih]
      simp

/-- What was popped, then what a Cancel threw away, then what is left: together what was
accepted. Once a Cancel has thrown values away, the queue is closed and empty for good. -/
theorem balanced (reached : Reaches (atomic operations) unrestricted empty history tasks) :
    popped history ++ discarded history ++ tasks.queue = accepted history ∧
      (discarded history = [] ∨ tasks.isClosed = true ∧ tasks.queue = []) := by
  induction reached with
  | start => exact ⟨rfl, Or.inl rfl⟩
  | @next history tasks after entry _ _ taken ih =>
      rcases entry with ⟨call, found⟩
      rcases entry_step taken with ⟨rfl, _, rfl⟩
      have popped_next : popped (history ++ [(call, tasks)]) =
          popped history ++ (popOf (call, tasks)).toList := filterMap_snoc _ _ _
      have accepted_next : accepted (history ++ [(call, tasks)]) =
          accepted history ++ (acceptOf (call, tasks)).toList := filterMap_snoc _ _ _
      rw [popped_next, accepted_next, discarded_next, ← ih.1]
      rcases ih.2 with none' | ⟨closed, drained⟩
      -- Nothing discarded so far: the values of this section are the next in order.
      · have moved := body_balance call tasks
        constructor
        · simp [none', moved]
        · by_cases kept : discardOf (call, tasks) = []
          · exact Or.inl (by simp [none', kept])
          · exact Or.inr (discard_ends kept)
      -- Closed and drained for good: no section accepts, pops or discards any more.
      · rcases body_ended call closed drained with ⟨same, noPut, noTake, noCancel⟩
        constructor
        · simp [same, noPut, noTake, noCancel]
        · exact Or.inr (by simp [same, closed, drained])

theorem ended_forever {late : List (Entry T)} {final : UnboundedBlockingQueue T}
    (closed : tasks.isClosed = true) (drained : tasks.queue = [])
    (reached : Reaches (atomic operations) unrestricted tasks late final) :
    final = tasks ∧ ∀ entry ∈ late, popOf entry = none := by
  induction reached with
  | start => exact ⟨rfl, by simp⟩
  | next entry _ _ taken ih =>
      rcases entry with ⟨call, found⟩
      rcases ih with ⟨rfl, quiet⟩
      rcases entry_step taken with ⟨rfl, _, rfl⟩
      rcases body_ended call closed drained with ⟨same, _, noTake, _⟩
      refine ⟨same, ?_⟩
      intro entry member
      rcases List.mem_append.mp member with before | last
      · exact quiet entry before
      · rw [List.mem_singleton.mp last, noTake]

theorem nullopt_final {early late : List (Entry T)}
    (reached : Reaches (atomic operations) unrestricted empty (early ++ (.take, found) :: late)
      tasks) (ended : optional found.take.1 = none) :
    found.isClosed = true ∧ found.queue = [] ∧ ∀ entry ∈ late, popOf entry = none := by
  rcases reached.around with ⟨before, after, _, _, taken, rest⟩
  rcases entry_step taken with ⟨rfl, ready, rfl⟩
  rcases take_none ready ended with ⟨closed, drained⟩
  -- The Take that found the queue closed and empty has left it so.
  rw [(body_ended .take closed drained).1] at rest
  exact ⟨closed, drained, (ended_forever closed drained rest).2⟩

theorem put_refused {early late : List (Entry T)} {value : T}
    (reached : Reaches (atomic operations) unrestricted empty
      (early ++ (.put value, found) :: late) tasks) :
    ((found.put value).2 = false ↔ ∃ entry ∈ early, closes entry = true) ∧
      ((found.put value).2 = false → (found.put value).1 = found) := by
  rcases reached.around with ⟨before, after, earlier, _, taken, _⟩
  rcases entry_step taken with ⟨rfl, _, _⟩
  constructor
  · rw [← List.any_eq_true, ← closed_history earlier]
    cases closed : before.isClosed <;> simp [UnboundedBlockingQueue.put, closed]
  · exact fun refused => (UnboundedBlockingQueue.put_refuses refused).2

end History

/-! Whom a parked Take can count on. -/

def takes : Call T → Bool
  | .take => true
  | _ => false

theorem supply : Supply (operations : Operations (UnboundedBlockingQueue T) (Call T) (Result T))
    (fun tasks => tasks.queue.length) takes where
  waits call tasks blocked := by
    rcases waits_call blocked with ⟨rfl, _, drained⟩
    exact ⟨rfl, by simp [drained]⟩
  taken call tasks taking _ := by
    cases call with
    | take =>
        cases content : tasks.queue <;>
          simp [operations, body, UnboundedBlockingQueue.take, content]
    | _ => cases taking
  given call tasks giving := by
    cases call with
    | put value =>
        cases closed : tasks.isClosed <;>
          simp [operations, body, UnboundedBlockingQueue.put, closed]
    | take => cases giving
    | _ => exact Or.inr (Or.inr rfl)

theorem release :
    Release (operations : Operations (UnboundedBlockingQueue T) (Call T) (Result T))
      (fun tasks => tasks.isClosed) where
  waits call tasks blocked := (waits_call blocked).2.1
  announced call tasks before now := by
    have closing := body_closed call tasks
    rw [before, Bool.false_or] at closing
    -- Close and Cancel are the only ones to close it, and both notify all.
    cases call with
    | close | cancel => rfl
    | _ => exact absurd (closing.symm.trans now) nofun

theorem result_take {entry : Entry T} {result : Option T}
    (returns : (operations.body entry.1 entry.2).result = .take result) :
    entry.1 = .take ∧ optional entry.2.take.1 = result := by
  rcases entry with ⟨call, found⟩
  cases call with
  | take => exact ⟨rfl, by simpa [operations, body] using returns⟩
  | _ => cases returns

/-! The queue as a machine. -/
section Machine
variable {Thread : Type} [Fintype Thread] [DecidableEq Thread] [DecidableEq T]
  {s : State Thread (UnboundedBlockingQueue T) (Call T) (Result T)} {t : Thread}
  {trace : List (Label Thread (UnboundedBlockingQueue T) (Call T) (Result T))}

theorem nullopt_returned (reached : Reaches (step operations) unrestricted (init empty) trace s)
    {early late : List (Result T)} (split : returned trace = early ++ .take none :: late)
    (result : T) : .take (some result) ∉ late := by
  intro member
  have order := returned_results reached
  rw [split, List.append_assoc, List.cons_append, results, List.map_eq_append_iff] at order
  rcases order with ⟨first, rest, history, _, tail⟩
  rcases List.map_eq_cons_iff.mp tail with ⟨entry, later, rfl, ended, after⟩
  rcases entry with ⟨call, found⟩
  rcases result_take ended with ⟨rfl, none'⟩
  -- Calls return in the order of their sections, so the later results come from later sections.
  have atomic := sections_atomic reached
  rw [history] at atomic
  have returns : Result.take (some result) ∈
      later.map fun entry => (operations.body entry.1 entry.2).result := by
    rw [after]
    exact List.mem_append_left _ member
  rcases List.mem_map.mp returns with ⟨⟨own, seen⟩, inside, same⟩
  rcases result_take same with ⟨rfl, some'⟩
  have quiet := (nullopt_final atomic none').2.2 _ inside
  rw [popOf, some'] at quiet
  cases quiet

/-- The queue is a closable FIFO queue. Popped values, then those the first Cancel that
found any has discarded, then the contents: together the accepted values, in order. A
Put returns false exactly when a Close or a Cancel ran before its section, and then
changes nothing. A Take returns nullopt only if its last section finds the queue closed
and empty, and after that no section pops a value and no Take returns one. -/
theorem closable_fifo (reached : Reaches (step operations) unrestricted (init empty) trace s) :
    popped (sections trace) ++ discarded (sections trace) ++ s.data.queue =
      accepted (sections trace) ∧
    (∀ early late value found, sections trace = early ++ (.put value, found) :: late →
      ((body (.put value) found).result = .put false ↔ ∃ entry ∈ early, closes entry = true) ∧
      ((body (.put value) found).result = .put false → (body (.put value) found).data = found)) ∧
    (∀ early late found, sections trace = early ++ (.take, found) :: late →
      (body .take found).result = .take none →
      found.isClosed = true ∧ found.queue = [] ∧ ∀ entry ∈ late, popOf entry = none) ∧
    ∀ early late, returned trace = early ++ .take none :: late →
      ∀ result, .take (some result) ∉ late := by
  have atomic := sections_atomic reached
  refine ⟨(balanced atomic).1, ?_, ?_, ?_⟩
  · intro early late value found split
    rw [split] at atomic
    simpa [body] using put_refused atomic
  · intro early late found split ended
    rw [split] at atomic
    exact nullopt_final atomic (by simpa [body] using ended)
  · intro early late split result
    exact nullopt_returned reached split result

/-- Two values are put and one is taken before a Cancel, a refused Put and a Take that
returns nullopt. -/
theorem closable_fifo_cancelled :
    ∃ (trace : List (Label (Fin 3) (UnboundedBlockingQueue ℕ) (Call ℕ) (Result ℕ)))
      (s : State (Fin 3) (UnboundedBlockingQueue ℕ) (Call ℕ) (Result ℕ)),
      run (step operations) (init empty) trace = some s ∧
      popped (sections trace) = [7] ∧ discarded (sections trace) = [8] ∧
      popped (sections trace) ++ discarded (sections trace) ++ s.data.queue =
        accepted (sections trace) := by
  have ran : run (step operations)
      (init empty : State (Fin 3) (UnboundedBlockingQueue ℕ) (Call ℕ) (Result ℕ))
      [(1, .invoke (.put 7)), (1, .lock (.put 7)), (1, .pass (.put 7)),
        (1, .act (.put 7) ⟨false, []⟩), (1, .notifyOne (.put true) none), (1, .unlock (.put true)),
        (1, .invoke (.put 8)), (1, .lock (.put 8)), (1, .pass (.put 8)),
        (1, .act (.put 8) ⟨false, [7]⟩), (1, .notifyOne (.put true) none), (1, .unlock (.put true)),
        (0, .invoke .take), (0, .lock .take), (0, .pass .take), (0, .act .take ⟨false, [7, 8]⟩),
        (0, .unlock (.take (some 7))),
        (2, .invoke .cancel), (2, .lock .cancel), (2, .pass .cancel),
        (2, .act .cancel ⟨false, [8]⟩), (2, .notifyAll .closed), (2, .unlock .closed),
        (1, .invoke (.put 9)), (1, .lock (.put 9)), (1, .pass (.put 9)),
        (1, .act (.put 9) ⟨true, []⟩), (1, .unlock (.put false)),
        (0, .invoke .take), (0, .lock .take), (0, .pass .take), (0, .act .take ⟨true, []⟩),
        (0, .unlock (.take none))] = some _ := rfl
  exact ⟨_, _, ran, rfl, rfl, (closable_fifo (run_free ran)).1⟩

/-- No Take sleeps past its event. While the mutex is free and a Take is parked, no Close
and no Cancel has run, the queue is open, and at least as many Takes have been notified and
not tested again as there are elements. -/
theorem no_take_oversleeps
    (reached : Reaches (step operations) unrestricted (init empty) trace s)
    (free : s.mutex = none) (asleep : (s.pc t).isParked = true) :
    s.data.isClosed = false ∧ s.data.queue.length ≤ headcount Pc.notified s.pc ∧
      ∀ entry ∈ sections trace, closes entry = false := by
  have opened := parked_unreleased release reached free asleep
  refine ⟨opened, parked_supplied supply reached free asleep, fun entry ran => ?_⟩
  rw [closed_history (sections_atomic reached), List.any_eq_false] at opened
  simpa using opened entry ran

/-- Threads 0 and 1 are parked when thread 2 puts a value and notifies thread 0. -/
theorem no_take_oversleeps_one_notified :
    ∃ (trace : List (Label (Fin 3) (UnboundedBlockingQueue ℕ) (Call ℕ) (Result ℕ)))
      (s : State (Fin 3) (UnboundedBlockingQueue ℕ) (Call ℕ) (Result ℕ)),
      run (step operations) (init empty) trace = some s ∧ s.mutex = none ∧
      (s.pc 1).isParked = true ∧ s.data.queue = [7] ∧
      s.data.queue.length ≤ headcount Pc.notified s.pc ∧
      ∀ entry ∈ sections trace, closes entry = false := by
  have ran : run (step operations)
      (init empty : State (Fin 3) (UnboundedBlockingQueue ℕ) (Call ℕ) (Result ℕ))
      [(0, .invoke .take), (0, .lock .take), (0, .wait .take),
        (1, .invoke .take), (1, .lock .take), (1, .wait .take),
        (2, .invoke (.put 7)), (2, .lock (.put 7)), (2, .pass (.put 7)),
        (2, .act (.put 7) ⟨false, []⟩), (2, .notifyOne (.put true) (some 0)),
        (2, .unlock (.put true))] = some _ := rfl
  have counted := no_take_oversleeps (t := 1) (run_free ran) rfl rfl
  exact ⟨_, _, ran, rfl, rfl, rfl, counted.2⟩

end Machine

/-! How far the calls get. -/

def puts : Call T → Bool
  | .put _ => true
  | _ => false

def closings : Call T → Bool
  | .close | .cancel => true
  | _ => false

def wakes (threads : ℕ) : Call T → ℕ
  | .put _ => 1
  | .take => 0
  | .close | .cancel => threads

theorem notifies (threads : ℕ) :
    Notifies (operations : Operations (UnboundedBlockingQueue T) (Call T) (Result T)) threads
      (wakes threads) where
  one call tasks signal := by
    cases call with
    | put value => exact le_refl 1
    | _ => cases signal
  all call tasks signal := by
    cases call with
    | put value => cases closed : tasks.isClosed <;>
        simp [operations, body, UnboundedBlockingQueue.put, closed] at signal
    | take => cases signal
    | _ => exact le_refl threads

theorem charged_calls (threads : ℕ) (made : List (Call T)) :
    (made.map fun call => 7 + 2 * wakes threads call).sum =
      9 * made.countP puts + 7 * made.countP takes + (7 + 2 * threads) * made.countP closings := by
  induction made with
  | nil => rfl
  | cons call rest ih =>
      rw [List.map_cons, List.sum_cons, ih, List.countP_cons, List.countP_cons, List.countP_cons]
      cases call with
      | put value =>
          change 7 + 2 * 1 + _ = 9 * (_ + 1) + 7 * (_ + 0) + _ * (_ + 0)
          simp only [Nat.add_zero]
          omega
      | take =>
          change 7 + 2 * 0 + _ = 9 * (_ + 0) + 7 * (_ + 1) + _ * (_ + 0)
          simp only [Nat.add_zero]
          omega
      | _ =>
          change 7 + 2 * threads + _ = 9 * (_ + 0) + 7 * (_ + 0) + _ * (_ + 1)
          rw [Nat.mul_add_one]
          omega

section Settled
variable {Thread : Type} [Fintype Thread] [DecidableEq Thread] [DecidableEq T]
  {s : State Thread (UnboundedBlockingQueue T) (Call T) (Result T)} {t : Thread}
  {trace : List (Label Thread (UnboundedBlockingQueue T) (Call T) (Result T))}
  {history : List (Entry T)} {tasks : UnboundedBlockingQueue T}

theorem open_history (reached : Reaches (atomic operations) unrestricted empty history tasks)
    (opened : tasks.isClosed = false) :
    (accepted history).length = history.countP (fun entry => puts entry.1) ∧
      (popped history).length = history.countP fun entry => takes entry.1 := by
  induction reached with
  | start => exact ⟨rfl, rfl⟩
  | @next history tasks after entry _ _ taken ih =>
      obtain ⟨call, found⟩ := entry
      obtain ⟨rfl, ready, rfl⟩ := entry_step taken
      have stays := body_closed call tasks
      rw [opened] at stays
      obtain ⟨before, other⟩ := Bool.or_eq_false_iff.mp stays.symm
      obtain ⟨allAccepted, allPopped⟩ := ih before
      simp only [accepted, popped, filterMap_snoc, List.length_append, List.countP_append,
        List.countP_singleton] at allAccepted allPopped ⊢
      rw [allAccepted, allPopped]
      cases call with
      | put value => simp [acceptOf, popOf, UnboundedBlockingQueue.put, before, puts, takes]
      | take =>
          cases content : tasks.queue with
          | nil => simp [waits, before, content] at ready
          | cons front rest =>
              simp [acceptOf, popOf, UnboundedBlockingQueue.take, optional, content, puts, takes]
      | _ => cases other

theorem attentive : Attentive Thread operations (empty : UnboundedBlockingQueue T) := by
  intro trace s t call reached idle parked
  obtain ⟨taking, none'⟩ := idle.starved supply reached parked
  have opened := parked_unreleased release reached (idle.free (sound reached)) (u := t)
    (by rw [parked]; rfl)
  cases call with
  | take =>
      have drained : s.data.queue = [] := List.eq_nil_of_length_eq_zero none'
      simp only [operations, waits, drained, List.isEmpty_nil, Bool.and_true, Bool.not_eq_true']
      exact opened
  | _ => cases taking

theorem idle_rests
    (reached : Reaches (step operations) unrestricted (init (empty : UnboundedBlockingQueue T))
      trace s) (idle : Idle operations s) (t : Thread) :
    s.pc t = .outside ∨ s.pc t = .parked .take := by
  rcases idle.threads (sound reached) t with outside | ⟨call, parked⟩
  · exact .inl outside
  · have taking := (idle.starved supply reached parked).1
    cases call with
    | take => exact .inr parked
    | _ => cases taking

theorem calls_made (reached : Reaches (step operations) unrestricted (init empty) trace s)
    (idle : Idle operations s) (which : Call T → Bool) (other : which .take = false) :
    (calls trace).countP which =
      (sections trace).countP fun entry : Entry T => which entry.1 := by
  have nobody : headcount (Pc.pending which) s.pc = 0 := by
    refine idle.nobody_pending supply reached fun call taking => ?_
    cases call with
    | take => exact other
    | _ => cases taking
  rw [calls_done which reached, nobody, add_zero]

omit [DecidableEq T] in
theorem closings_entry (entry : Entry T) : closings entry.1 = closes entry := by
  obtain ⟨call, found⟩ := entry
  cases call <;> rfl

theorem closed_rests (reached : Reaches (step operations) unrestricted (init empty) trace s)
    (idle : Idle operations s) (closed : s.data.isClosed = true) (t : Thread) :
    s.pc t = .outside := by
  rcases idle_rests reached idle t with outside | parked
  · exact outside
  · have opened := parked_unreleased release reached (idle.free (sound reached)) (u := t)
      (by rw [parked]; rfl)
    cases opened.symm.trans closed

theorem open_popped (reached : Reaches (step operations) unrestricted (init empty) trace s)
    (idle : Idle operations s) (opened : s.data.isClosed = false) :
    (popped (sections trace)).length =
      min ((calls trace).countP takes)
        ((sections trace).countP fun entry : Entry T => puts entry.1) := by
  have atomic := sections_atomic reached
  obtain ⟨allAccepted, allPopped⟩ := open_history atomic opened
  obtain ⟨order, kept⟩ := balanced atomic
  -- A Cancel that discards values closes the queue.
  have undiscarded : discarded (sections trace) = [] := by
    rcases kept with none' | ⟨isClosed, _⟩
    · exact none'
    · cases opened.symm.trans isClosed
  have balance := congrArg List.length order
  rw [undiscarded, List.append_nil, List.length_append] at balance
  have taken : (calls trace).countP takes =
      (sections trace).countP (fun entry : Entry T => takes entry.1) +
        headcount (Pc.pending takes) s.pc := calls_done takes reached
  by_cases waiting : headcount (Pc.pending takes) s.pc = 0
  · omega
  -- A Take that still waits has found everything popped.
  · have empty := idle.exhausted supply reached waiting
    omega

/-- Calls of the queue come to an end of their steps: altogether nine for each Put, seven for
each Take, for a Close or a Cancel two more for every thread, and three for each spurious
wake-up. Where none of them can go on, all calls have returned if the queue was ever closed;
otherwise the Takes that have not returned are those for which nothing was put. -/
theorem queue_settles (reached : Reaches (step operations) unrestricted (init empty) trace s) :
    trace.length ≤ 9 * (calls trace).countP puts + 7 * (calls trace).countP takes +
        (7 + 2 * Fintype.card Thread) * (calls trace).countP closings + 3 * spurious trace ∧
    (Idle operations s →
      (0 < (calls trace).countP closings → ∀ t, s.pc t = .outside) ∧
      ((calls trace).countP closings = 0 →
        (∀ t, s.pc t = .outside ∨ s.pc t = .parked .take) ∧
        (popped (sections trace)).length =
          min ((calls trace).countP takes) ((calls trace).countP puts))) := by
  constructor
  · have bound := length_le_calls (notifies (Fintype.card Thread)) reached
    rw [charged_calls] at bound
    exact bound
  · intro idle
    have closed : s.data.isClosed = (sections trace).any closes :=
      closed_history (sections_atomic reached)
    rw [calls_made reached idle closings rfl, calls_made reached idle puts rfl]
    constructor
    · intro someone
      obtain ⟨entry, member, closing⟩ := List.countP_pos_iff.mp someone
      refine closed_rests reached idle (closed.trans ?_)
      exact List.any_eq_true.mpr ⟨entry, member, (closings_entry entry).symm.trans closing⟩
    · intro nobody
      have opened : s.data.isClosed = false := by
        refine closed.trans (List.any_eq_false.mpr fun entry member closing => ?_)
        exact List.countP_eq_zero.mp nobody entry member ((closings_entry entry).trans closing)
      exact ⟨idle_rests reached idle, open_popped reached idle opened⟩

/-- The first of two Takes gets the only value, the second is left parked. -/
theorem queue_settles_one_left :
    ∃ (trace : List (Label (Fin 2) (UnboundedBlockingQueue ℕ) (Call ℕ) (Result ℕ)))
      (s : State (Fin 2) (UnboundedBlockingQueue ℕ) (Call ℕ) (Result ℕ)),
      run (step operations) (init empty) trace = some s ∧ trace.length ≤ 23 ∧
      (popped (sections trace)).length = min 2 1 := by
  let trace : List (Label (Fin 2) (UnboundedBlockingQueue ℕ) (Call ℕ) (Result ℕ)) :=
    [(0, .invoke .take), (0, .lock .take), (0, .wait .take),
      (1, .invoke (.put 7)), (1, .lock (.put 7)), (1, .pass (.put 7)),
      (1, .act (.put 7) ⟨false, []⟩), (1, .notifyOne (.put true) (some 0)),
      (1, .unlock (.put true)), (0, .relock .take true), (0, .pass .take),
      (0, .act .take ⟨false, [7]⟩), (0, .unlock (.take (some 7))),
      (0, .invoke .take), (0, .lock .take), (0, .wait .take)]
  have ran : run (step operations)
      (init empty : State (Fin 2) (UnboundedBlockingQueue ℕ) (Call ℕ) (Result ℕ)) trace =
      some _ := rfl
  obtain ⟨bound, settled⟩ := queue_settles (run_free ran)
  refine ⟨trace, _, ran, bound, ((settled (idle_of_threads fun t => ?_)).2 rfl).2⟩
  match t with
  | 0 => exact .inr ⟨.take, rfl⟩
  | 1 => exact .inl rfl

end Settled
end ConcurrencyCourse.ClosableQueue
