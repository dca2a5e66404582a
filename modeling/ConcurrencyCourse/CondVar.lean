import ConcurrencyCourse.Interleaving
import ConcurrencyCourse.Headcount

/-!
`stdlike::CondVar` of tasks/condvar/condvar/condvar.hpp over any lock. Wait is the
read of `futex_`, `mutex.unlock()`, `FutexWait(old)`, which parks only if `futex_`
still reads `old`, and `mutex.lock()`; a notification is `fetch_add` and then a
wake of one sleeper or of all. The counter is the 32-bit word of the source, so it
wraps, and what a waiter missed is counted on the trace.
-/

namespace ConcurrencyCourse.CondVar

open Interleaving Headcount

inductive Notify where
  | one
  | all
  deriving DecidableEq

inductive Pc where
  | running
  | waitRead
  | waitUnlock (oldSignalCount : UInt32)
  | waitFutex (oldSignalCount : UInt32)
  | parked
  | waitLock
  | fetchAdd (notify : Notify)
  | wake (notify : Notify)
  deriving DecidableEq

/-- `lock` and `unlock` are the client's own; any thread may notify, with the mutex
or without it. -/
inductive Op (Thread : Type) where
  | lock
  | unlock
  | callWait
  | read
  | release
  | futexWait
  | spuriousWake
  | relock
  | callNotify (notify : Notify)
  | fetchAdd
  | futexWakeOne (woken : Option Thread)
  | futexWakeAll
  deriving DecidableEq

structure State (Thread : Type) where
  futex : UInt32
  mutex : Option Thread
  pc : Thread → Pc

variable {Thread : Type}

def init : State Thread := { futex := 0, mutex := none, pc := fun _ => .running }

def Pc.isParked : Pc → Bool
  | .parked => true
  | _ => false

theorem parked_of {pc : Pc} (asleep : pc.isParked = true) : pc = .parked := by
  cases pc <;> first | rfl | cases asleep

abbrev Label (Thread : Type) := Thread × Op Thread

section Step
variable [Fintype Thread] [DecidableEq Thread]

def step (s : State Thread) : Label Thread → Option (State Thread)
  | (t, .lock) => guarded (s.pc t = .running ∧ s.mutex = none) { s with mutex := some t }
  | (t, .unlock) => guarded (s.pc t = .running ∧ s.mutex = some t) { s with mutex := none }
  | (t, .callWait) => guarded (s.pc t = .running ∧ s.mutex = some t)
      { s with pc := Function.update s.pc t .waitRead }
  | (t, .read) => guarded (s.pc t = .waitRead)
      { s with pc := Function.update s.pc t (.waitUnlock s.futex) }
  -- From here to FutexWait the waiter holds neither the mutex nor a place in the queue.
  | (t, .release) => match s.pc t with
      | .waitUnlock old =>
          some { s with mutex := none, pc := Function.update s.pc t (.waitFutex old) }
      | _ => none
  | (t, .futexWait) => match s.pc t with
      | .waitFutex old => some
          { s with pc := Function.update s.pc t (if s.futex = old then .parked else .waitLock) }
      | _ => none
  | (t, .spuriousWake) => guarded (s.pc t = .parked)
      { s with pc := Function.update s.pc t .waitLock }
  | (t, .relock) => guarded (s.pc t = .waitLock ∧ s.mutex = none)
      { s with mutex := some t, pc := Function.update s.pc t .running }
  | (t, .callNotify notify) => guarded (s.pc t = .running)
      { s with pc := Function.update s.pc t (.fetchAdd notify) }
  | (t, .fetchAdd) => match s.pc t with
      | .fetchAdd notify => some
          { s with futex := s.futex + 1, pc := Function.update s.pc t (.wake notify) }
      | _ => none
  | (t, .futexWakeOne woken) => guarded (s.pc t = .wake .one ∧ Wakes Pc.isParked s.pc woken)
      { s with pc := Function.update (wakeOne .waitLock s.pc woken) t .running }
  | (t, .futexWakeAll) => guarded (s.pc t = .wake .all)
      { s with pc := Function.update (wakeAll Pc.isParked .waitLock s.pc) t .running }

variable {s after : State Thread} {t : Thread}

theorem release_step (taken : step s (t, .release) = some after) :
    ∃ old, s.pc t = .waitUnlock old ∧
      after = { s with mutex := none, pc := Function.update s.pc t (.waitFutex old) } := by
  cases here : s.pc t <;> simp only [step, here, reduceCtorEq, Option.some.injEq] at taken
  exact ⟨_, rfl, taken.symm⟩

theorem futexWait_step (taken : step s (t, .futexWait) = some after) :
    ∃ old, s.pc t = .waitFutex old ∧ after =
      { s with pc := Function.update s.pc t (if s.futex = old then .parked else .waitLock) } := by
  cases here : s.pc t <;> simp only [step, here, reduceCtorEq, Option.some.injEq] at taken
  exact ⟨_, rfl, taken.symm⟩

theorem fetchAdd_step (taken : step s (t, .fetchAdd) = some after) :
    ∃ notify, s.pc t = .fetchAdd notify ∧ after =
      { s with futex := s.futex + 1, pc := Function.update s.pc t (.wake notify) } := by
  cases here : s.pc t <;> simp only [step, here, reduceCtorEq, Option.some.injEq] at taken
  exact ⟨_, rfl, taken.symm⟩

theorem other_step {u : Thread} {op : Op Thread} (other : u ≠ t)
    (taken : step s (t, op) = some after) :
    after.pc u = s.pc u ∨ (s.pc u = .parked ∧ after.pc u = .waitLock) := by
  cases op with
  | lock | unlock | callWait | read | spuriousWake | relock | callNotify =>
      rcases guarded_eq_some.mp taken with ⟨_, rfl⟩
      exact Or.inl (by simp [other])
  | release =>
      rcases release_step taken with ⟨_, _, rfl⟩
      exact Or.inl (by simp [other])
  | futexWait =>
      rcases futexWait_step taken with ⟨_, _, rfl⟩
      exact Or.inl (by simp [other])
  | fetchAdd =>
      rcases fetchAdd_step taken with ⟨_, _, rfl⟩
      exact Or.inl (by simp [other])
  | futexWakeOne woken =>
      rcases guarded_eq_some.mp taken with ⟨⟨_, wakes⟩, rfl⟩
      simp only [Function.update_of_ne other]
      rcases wakeOne_cases .waitLock wakes u with same | ⟨asleep, awake⟩
      · exact Or.inl same
      · exact Or.inr ⟨parked_of asleep, awake⟩
  | futexWakeAll =>
      rcases guarded_eq_some.mp taken with ⟨_, rfl⟩
      simp only [Function.update_of_ne other]
      rcases wakeAll_cases Pc.isParked .waitLock s.pc u with same | ⟨asleep, awake⟩
      · exact Or.inl same
      · exact Or.inr ⟨parked_of asleep, awake⟩

end Step

/-! A waiter's distance from the word it read is counted on the trace: the
notifications since its last read of `futex_`, which the 32-bit word only knows
modulo 2^32. -/
section Missed
variable [DecidableEq Thread]

def isFetchAdd : Label Thread → Bool
  | (_, .fetchAdd) => true
  | _ => false

def missed (u : Thread) (trace : List (Label Thread)) : ℕ :=
  trace.foldl (fun count label =>
    if label = (u, .read) then 0 else count + (isFetchAdd label).toNat) 0

theorem missed_next (u : Thread) (trace : List (Label Thread)) (label : Label Thread) :
    missed u (trace ++ [label]) =
      if label = (u, .read) then 0 else missed u trace + (isFetchAdd label).toNat := by
  simp [missed]

variable [Fintype Thread] {s after : State Thread} {t u : Thread} {old : UInt32}
  {trace : List (Label Thread)}

theorem futex_step {op : Op Thread} (taken : step s (t, op) = some after) :
    after.futex = s.futex + UInt32.ofNat (isFetchAdd (t, op)).toNat := by
  cases op with
  | fetchAdd =>
      rcases fetchAdd_step taken with ⟨_, _, rfl⟩
      rfl
  | release =>
      rcases release_step taken with ⟨_, _, rfl⟩
      simp [isFetchAdd]
  | futexWait =>
      rcases futexWait_step taken with ⟨_, _, rfl⟩
      simp [isFetchAdd]
  | _ =>
      rcases guarded_eq_some.mp taken with ⟨_, rfl⟩
      simp [isFetchAdd]

def Pc.holds : Pc → UInt32 → Prop
  | .waitUnlock read, old => read = old
  | .waitFutex read, old => read = old
  | _, _ => False

theorem holds_step {op : Op Thread} (taken : step s (t, op) = some after)
    (holding : (after.pc u).holds old) :
    (t, op) = (u, .read) ∧ after.futex = old ∨ (t, op) ≠ (u, .read) ∧ (s.pc u).holds old := by
  by_cases self : u = t
  · subst self
    cases op with
    | read =>
        rcases guarded_eq_some.mp taken with ⟨_, rfl⟩
        exact Or.inl ⟨rfl, by simpa [Pc.holds] using holding⟩
    | release =>
        rcases release_step taken with ⟨_, here, rfl⟩
        exact Or.inr ⟨by simp, by simpa [here, Pc.holds] using holding⟩
    | futexWait =>
        -- Parked or on its way to the mutex, the waiter has no use for the word any more.
        rcases futexWait_step taken with ⟨read, _, rfl⟩
        by_cases same : s.futex = read <;> simp [same, Pc.holds] at holding
    | fetchAdd =>
        rcases fetchAdd_step taken with ⟨_, _, rfl⟩
        simp [Pc.holds] at holding
    | lock | unlock =>
        rcases guarded_eq_some.mp taken with ⟨_, rfl⟩
        exact Or.inr ⟨by simp, holding⟩
    | _ =>
        rcases guarded_eq_some.mp taken with ⟨_, rfl⟩
        simp [Pc.holds] at holding
  · have different : (t, op) ≠ (u, .read) := by
      rintro same
      exact self (congrArg Prod.fst same).symm
    rcases other_step self taken with same | ⟨_, woken⟩
    · exact Or.inr ⟨different, same ▸ holding⟩
    · simp [woken, Pc.holds] at holding

theorem futex_missed (reached : Reaches step unrestricted init trace s) (u : Thread)
    (holding : (s.pc u).holds old) : s.futex = old + UInt32.ofNat (missed u trace) := by
  induction reached with
  | start => cases holding
  | next label _ _ taken ih =>
      rcases label with ⟨t, op⟩
      rcases holds_step taken holding with ⟨reads, same⟩ | ⟨other, before⟩
      · rw [missed_next, if_pos reads, same]
        simp
      · rw [missed_next, if_neg other, futex_step taken, ih before, UInt32.ofNat_add,
          UInt32.add_assoc]

end Missed

/-! A Wait call that has released the mutex and is not yet past FutexWait. -/
section Asleep
variable [Fintype Thread] [DecidableEq Thread] {s after final : State Thread} {t u : Thread}
  {old : UInt32} {trace during : List (Label Thread)}

def Pc.asleep : Pc → Bool
  | .parked => true
  | .waitFutex _ => true
  | _ => false

theorem asleep_step {op : Op Thread} (asleep : (s.pc u).asleep = true)
    (taken : step s (t, op) = some after) :
    (t, op) ≠ (u, .read) ∧ ((after.pc u).asleep = true ∨ after.pc u = .waitLock) := by
  by_cases self : u = t
  · subst self
    cases op with
    | futexWait =>
        rcases futexWait_step taken with ⟨read, _, rfl⟩
        by_cases same : s.futex = read <;> simp [same, Pc.asleep]
    | spuriousWake =>
        rcases guarded_eq_some.mp taken with ⟨_, rfl⟩
        simp
    | release =>
        rcases release_step taken with ⟨_, here, _⟩
        simp [here, Pc.asleep] at asleep
    | fetchAdd =>
        rcases fetchAdd_step taken with ⟨_, here, _⟩
        simp [here, Pc.asleep] at asleep
    | _ =>
        rcases guarded_eq_some.mp taken with ⟨enabled, _⟩
        simp [enabled, Pc.asleep] at asleep
  · constructor
    · rintro same
      exact self (congrArg Prod.fst same).symm
    · rcases other_step self taken with same | ⟨_, woken⟩
      · exact Or.inl (same ▸ asleep)
      · exact Or.inr woken

def Passed (u : Thread) (s : State Thread) (during : List (Label Thread)) : Prop :=
  ∃ early woken, early <+: during ∧ Reaches step unrestricted s early woken ∧
    woken.pc u = .waitLock

theorem passed_or_asleep (asleep : (s.pc u).asleep = true) (one : 1 ≤ missed u trace)
    (reached : Reaches step unrestricted s during final) :
    Passed u s during ∨ ((final.pc u).asleep = true ∧ 1 ≤ missed u (trace ++ during)) := by
  induction reached with
  | start => exact Or.inr ⟨asleep, by simpa using one⟩
  | next label reached _ taken ih =>
      rcases label with ⟨t, op⟩
      rcases ih with ⟨early, woken, shorter, early_reached, passed⟩ | ⟨still, more⟩
      · exact Or.inl ⟨early, woken, shorter.trans (List.prefix_append _ _), early_reached, passed⟩
      · rcases asleep_step still taken with ⟨other, asleep | woken⟩
        · apply Or.inr
          constructor
          · exact asleep
          · rw [← List.append_assoc, missed_next, if_neg other]
            omega
        · exact Or.inl ⟨_, _, List.prefix_refl _, .next _ reached trivial taken, woken⟩

theorem waitFutex_kept (here : s.pc u = .waitFutex old) (before : (u, .futexWait) ∉ during)
    (reached : Reaches step unrestricted s during final) : final.pc u = .waitFutex old := by
  induction reached with
  | start => exact here
  | next label reached _ taken ih =>
      rcases label with ⟨t, op⟩
      simp only [List.mem_append, List.mem_singleton, not_or] at before
      have still := ih before.1
      by_cases self : u = t
      · subst self
        cases op with
        | futexWait => exact absurd rfl before.2
        | release =>
            rcases release_step taken with ⟨_, there, _⟩
            simp [there] at still
        | fetchAdd =>
            rcases fetchAdd_step taken with ⟨_, there, _⟩
            simp [there] at still
        | _ =>
            rcases guarded_eq_some.mp taken with ⟨enabled, _⟩
            simp [enabled] at still
      · rcases other_step self taken with same | ⟨parked, _⟩
        · exact same.trans still
        · simp [parked] at still

/-- The thread's FutexWait, whenever it comes, returns at once: however the run goes
on, as long as fewer than 2^32 notifications fall between its read and the check. -/
def ReturnsAtOnce (u : Thread) (trace : List (Label Thread)) (s : State Thread) : Prop :=
  ∀ rest later, Reaches step unrestricted s rest later → (u, .futexWait) ∉ rest →
    missed u (trace ++ rest) < 2 ^ 32 →
    step later (u, .futexWait) = some { later with pc := Function.update later.pc u .waitLock }

theorem stale_returns (reached : Reaches step unrestricted init trace s)
    (here : s.pc u = .waitFutex old) (one : 1 ≤ missed u trace) : ReturnsAtOnce u trace s := by
  intro rest later onward before few
  have there := waitFutex_kept here before onward
  have word := futex_missed (reached.append onward) u (by rw [there]; rfl)
  have still : 1 ≤ missed u (trace ++ rest) := by
    rcases passed_or_asleep (by rw [here]; rfl) one onward with
      ⟨early, woken, ⟨later_rest, rfl⟩, early_reached, passed⟩ | ⟨_, more⟩
    · have kept := waitFutex_kept here (fun member => before (by simp [member])) early_reached
      simp [kept] at passed
    · exact more
  -- Between 1 and 2^32 - 1 increments never bring the word back to `old`.
  have stale : later.futex ≠ old := by
    rw [word]
    intro same
    have zero : (UInt32.ofNat (missed u (trace ++ rest))) = 0 := by simpa using same
    have value := congrArg UInt32.toNat zero
    simp only [UInt32.toNat_ofNat', UInt32.toNat_zero] at value
    omega
  simp [step, there, stale]

end Asleep

/-! What a finished notification has done for the Wait calls that had released the
mutex before it. -/
section Notification
variable [Fintype Thread] [DecidableEq Thread]

def Pc.released (pc : Pc) : Prop := pc.asleep = true ∨ pc = .waitLock

/-- The Wait call in which the thread stood at `s` is unblocked: it is past its
sleep, woken or not, or its FutexWait returns at once. -/
def Unblocked (u : Thread) (trace : List (Label Thread)) (s : State Thread)
    (during : List (Label Thread)) (final : State Thread) : Prop :=
  Passed u s during ∨
    (∃ old, final.pc u = .waitFutex old) ∧ ReturnsAtOnce u (trace ++ during) final

variable {s final : State Thread} {notifier u : Thread} {trace during : List (Label Thread)}

theorem unblocked_or_parked (reached : Reaches step unrestricted init trace s)
    (notified : Reaches step unrestricted s ((notifier, .fetchAdd) :: during) final)
    (released : (s.pc u).released) :
    Unblocked u trace s ((notifier, .fetchAdd) :: during) final ∨ final.pc u = .parked := by
  rcases released with asleep | behind
  · have whole := notified
    rw [← List.singleton_append] at notified
    rcases notified.split with ⟨counted, added, onward⟩
    have counting : step s (notifier, .fetchAdd) = some counted := by
      simpa [run] using added.runs
    have one : 1 ≤ missed u (trace ++ [(notifier, .fetchAdd)]) := by
      simp [missed_next, isFetchAdd]
    rcases (asleep_step asleep counting).2 with still | passed
    · rcases passed_or_asleep still one onward with
        ⟨early, woken, shorter, early_reached, passed⟩ | ⟨there, more⟩
      · apply Or.inl
        exact Or.inl ⟨[(notifier, .fetchAdd)] ++ early, woken,
          (List.prefix_append_right_inj _).mpr shorter, added.append early_reached, passed⟩
      · cases here : final.pc u with
        | waitFutex old =>
            apply Or.inl
            apply Or.inr
            constructor
            · exact ⟨old, here⟩
            · exact stale_returns (reached.append whole) here (by simpa using more)
        | parked => exact Or.inr rfl
        | _ => simp [here, Pc.asleep] at there
    · exact Or.inl (Or.inl ⟨_, counted, List.prefix_append _ _, added, passed⟩)
  · exact Or.inl (Or.inl ⟨[], s, List.nil_prefix, .start, behind⟩)

theorem Unblocked.next {after : State Thread} {op : Op Thread}
    (unblocked : Unblocked u trace s during final) (other : u ≠ notifier)
    (taken : step final (notifier, op) = some after) :
    Unblocked u trace s (during ++ [(notifier, op)]) after := by
  rcases unblocked with ⟨early, woken, shorter, early_reached, passed⟩ | ⟨⟨old, here⟩, returns⟩
  · exact Or.inl ⟨early, woken, shorter.trans (List.prefix_append _ _), early_reached, passed⟩
  · apply Or.inr
    constructor
    · rcases other_step other taken with same | ⟨parked, _⟩
      · exact ⟨old, same.trans here⟩
      · simp [parked] at here
    · intro rest later onward before few
      apply returns ([(notifier, op)] ++ rest) later
      · exact .cons _ trivial taken onward
      · simp [before, other]
      · simpa using few

/-- CondVar loses no notification. Take a notification from its `fetch_add`, with any
steps of any threads before its wake. Once NotifyAll is done, every Wait call that had
released the mutex before the `fetch_add` is unblocked; once NotifyOne is done, that
is so or its wake woke a parked thread. -/
theorem no_lost_notification {waking : State Thread}
    (reached : Reaches step unrestricted init trace s)
    (notified : Reaches step unrestricted s ((notifier, .fetchAdd) :: during) waking) :
    (∀ final, step waking (notifier, .futexWakeAll) = some final →
      ∀ u, (s.pc u).released → Unblocked u trace s
        ((notifier, .fetchAdd) :: during ++ [(notifier, .futexWakeAll)]) final) ∧
    (∀ woken final, step waking (notifier, .futexWakeOne woken) = some final →
      (∃ v, woken = some v ∧ waking.pc v = .parked ∧ final.pc v = .waitLock) ∨
      ∀ u, (s.pc u).released → Unblocked u trace s
        ((notifier, .fetchAdd) :: during ++ [(notifier, .futexWakeOne woken)]) final) := by
  have apart : ∀ u, (s.pc u).released → u ≠ notifier := by
    rintro u released rfl
    rw [← List.singleton_append] at notified
    rcases notified.split with ⟨counted, added, _⟩
    rcases fetchAdd_step (by simpa [run] using added.runs) with ⟨_, here, _⟩
    simp [Pc.released, Pc.asleep, here] at released
  constructor
  · intro final taken u released
    rcases unblocked_or_parked reached notified released with unblocked | parked
    · exact unblocked.next (apart u released) taken
    · apply Or.inl
      refine ⟨_, final, List.prefix_refl _, .next _ notified trivial taken, ?_⟩
      rcases guarded_eq_some.mp taken with ⟨_, rfl⟩
      simp [apart u released, wakeAll, parked, Pc.isParked]
  · intro woken final taken
    rcases guarded_eq_some.mp taken with ⟨⟨here, wakes⟩, rfl⟩
    cases woken with
    | some v =>
        have asleep : waking.pc v = .parked := parked_of wakes
        have other : v ≠ notifier := by
          rintro rfl
          simp [asleep] at here
        exact Or.inl ⟨v, rfl, asleep, by simp [other, wakeOne]⟩
    | none =>
        -- The wake found nobody parked, so no released waiter sleeps.
        apply Or.inr
        intro u released
        rcases unblocked_or_parked reached notified released with unblocked | parked
        · exact unblocked.next (apart u released) taken
        · have awake := wakes u
          simp [parked, Pc.isParked] at awake

end Notification

def twoWaiters : List (Label (Fin 3)) :=
  [(0, .lock), (0, .callWait), (0, .read), (0, .release), (1, .lock), (1, .callWait),
    (1, .read), (1, .release), (1, .futexWait), (2, .callNotify .all)]

theorem no_lost_notification_two_waiters :
    ∃ s waking final, run step init (twoWaiters) = some s ∧
      run step s [(2, .fetchAdd)] = some waking ∧
      step waking (2, .futexWakeAll) = some final ∧
      Unblocked 0 (twoWaiters) s [(2, .fetchAdd), (2, .futexWakeAll)] final ∧
      Unblocked 1 (twoWaiters) s [(2, .fetchAdd), (2, .futexWakeAll)] final := by
  refine ⟨_, _, _, rfl, rfl, rfl, ?_⟩
  have all := (no_lost_notification (run_free (rfl : run step init (twoWaiters) = _))
    (run_free (rfl : run step _ [((2 : Fin 3), .fetchAdd)] = some _))).1 _ rfl
  exact ⟨all 0 (Or.inl rfl), all 1 (Or.inl rfl)⟩

end ConcurrencyCourse.CondVar
