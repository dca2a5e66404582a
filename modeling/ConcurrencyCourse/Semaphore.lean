import ConcurrencyCourse.MonitorProgress

/-!
`Semaphore` of tasks/condvar/semaphore/semaphore.hpp: a monitor over the `size_t`
`counter_`. A permit that Release adds goes to whoever tests the counter first, so a
notified thread may find it gone and wait again.
-/

namespace ConcurrencyCourse.Semaphore

open Interleaving Headcount Monitor

inductive Call where
  | acquire
  | release
  deriving DecidableEq

def waits : Call → UInt64 → Bool
  | .acquire, counter => counter ≤ 0
  | .release, _ => false

def body : Call → UInt64 → Outcome UInt64 Unit
  | .acquire, counter => { data := counter - 1, result := (), notify := none }
  | .release, counter =>
      { data := counter + 1, result := (),
        notify := if counter + 1 > 0 then some .one else none }

def operations : Operations UInt64 Call Unit := { waits := waits, body := body }

abbrev State (Thread : Type) := Monitor.State Thread UInt64 Call Unit

abbrev Label (Thread : Type) := Monitor.Label Thread UInt64 Call Unit

theorem waits_zero {call : Call} {counter : UInt64} (blocked : waits call counter = true) :
    call = .acquire ∧ counter = 0 := by
  cases call with
  | acquire => exact ⟨rfl, UInt64.le_zero_iff.mp (of_decide_eq_true blocked)⟩
  | release => cases blocked

theorem acquire_ready {counter : UInt64} (ready : waits .acquire counter = false) :
    counter ≠ 0 := by
  rintro rfl
  cases ready

/-! The semaphore as its clients see it: each operation one step. -/

def acquire (counter : UInt64) : Option UInt64 := guarded (counter ≠ 0) (counter - 1)

def release (counter : UInt64) : UInt64 := counter + 1

theorem atomic_acquire (counter : UInt64) :
    atomic operations counter (.acquire, counter) = acquire counter := by
  by_cases zero : counter = 0 <;>
    simp [atomic, acquire, operations, waits, body, guarded, zero]

theorem atomic_release (counter : UInt64) :
    atomic operations counter (.release, counter) = some (release counter) := by
  simp [atomic, release, operations, waits, body, guarded]

theorem acquire_eq_some {counter left : UInt64} :
    acquire counter = some left ↔ counter ≠ 0 ∧ counter - 1 = left :=
  guarded_eq_some

theorem acquire_toNat {counter : UInt64} (free : counter ≠ 0) :
    (counter - 1).toNat + 1 = counter.toNat :=
  sub_one_toNat free

theorem release_toNat {counter : UInt64} (fits : counter.toNat + 1 < 2 ^ 64) :
    (release counter).toNat = counter.toNat + 1 :=
  add_one_toNat fits

theorem release_wraps {counter : UInt64} (last : ¬ counter.toNat + 1 < 2 ^ 64) :
    (release counter).toNat + 2 ^ 64 = counter.toNat + 1 := by
  have bound := counter.toNat_lt
  rw [release, UInt64.toNat_add, UInt64.toNat_one]
  omega

/-! Permits and those who wait for them. -/
section Permits
variable {Thread : Type}

/-- Release never pushes the counter past the last value of `size_t`. -/
def permitsFit (s : State Thread) (label : Label Thread) : Prop :=
  label.2 = .act .release s.data → s.data.toNat + 1 < 2 ^ 64

def decrements : Label Thread → Bool
  | (_, .act .acquire _) => true
  | _ => false

def increments : Label Thread → Bool
  | (_, .act .release _) => true
  | _ => false

def acquires (trace : List (Label Thread)) : ℕ := trace.countP decrements

def releases (trace : List (Label Thread)) : ℕ := trace.countP increments

def takes : Call → Bool
  | .acquire => true
  | .release => false

theorem supply : Supply operations UInt64.toNat takes where
  waits call counter blocked := by
    rcases waits_zero blocked with ⟨rfl, rfl⟩
    exact ⟨rfl, rfl⟩
  taken call counter taking ready := by
    cases call with
    | acquire => exact Or.inl (acquire_toNat (acquire_ready ready)).le
    | release => cases taking
  given call counter giving := by
    cases call with
    | acquire => cases giving
    | release =>
        by_cases wraps : counter + 1 > 0
        · refine Or.inr (Or.inl ⟨by simp [operations, body, wraps], ?_⟩)
          simp only [operations, body, UInt64.toNat_add, UInt64.toNat_one]
          exact Nat.mod_le _ _
        · refine Or.inl ⟨by simp [operations, body, wraps], ?_⟩
          have zero : counter + 1 = 0 := UInt64.le_zero_iff.mp (UInt64.not_lt.mp wraps)
          simp [operations, body, zero]

theorem single_notify (call : Call) (counter : UInt64) :
    (operations.body call counter).notify ≠ some .all := by
  cases call with
  | acquire => simp [operations, body]
  | release => by_cases wraps : counter + 1 > 0 <;> simp [operations, body, wraps]

variable [Fintype Thread] [DecidableEq Thread]

instance (s : State Thread) (label : Label Thread) : Decidable (permitsFit s label) :=
  inferInstanceAs (Decidable (_ → _))

variable {initial : UInt64} {s after : State Thread} {trace : List (Label Thread)}

theorem counter_balance (reached : Reaches (step operations) permitsFit (init initial) trace s) :
    s.data.toNat + acquires trace = initial.toNat + releases trace := by
  induction reached with
  | start => rfl
  | @next trace s after label reached admitted taken ih =>
      rcases label with ⟨t, op⟩
      simp only [acquires, releases, List.countP_append, List.countP_singleton] at ih ⊢
      cases op with
      | act call found =>
          rcases acts_ready reached taken with ⟨rfl, ready⟩
          rcases guarded_eq_some.mp taken with ⟨_, rfl⟩
          cases call with
          | acquire =>
              have left := acquire_toNat (acquire_ready ready)
              simp only [operations, body, decrements, increments, if_true, Bool.false_eq_true,
                if_false]
              omega
          | release =>
              have more := release_toNat (admitted rfl)
              simp only [operations, body, decrements, increments, if_true, Bool.false_eq_true,
                if_false]
              simp only [release] at more
              omega
      | _ =>
          rw [data_still taken fun _ _ => nofun]
          simpa [decrements, increments] using ih

/-- Semaphore neither invents nor strands permits, as long as they fit the counter. The
counter is what was there at first and what Release added, less what Acquire took; the
decrement never runs at 0; while the mutex is free and a thread is parked, there are at
least as many notified threads that have not tested the counter again as there are
permits; and at any time a parked thread with a permit left over has somebody who was
notified, will notify or will take the permit. -/
theorem permits_conserved
    (reached : Reaches (step operations) permitsFit (init initial) trace s) :
    s.data.toNat + acquires trace = initial.toNat + releases trace ∧
    (∀ t, s.pc t = .acting .acquire → s.data ≠ 0) ∧
    (s.mutex = none → ∀ t, (s.pc t).isParked = true →
      s.data.toNat ≤ headcount Pc.notified s.pc) ∧
    (0 < s.data.toNat → ∀ t, (s.pc t).isParked = true →
      ∃ u, (s.pc u).notified = true ∨ (s.pc u).claims takes = true) := by
  refine ⟨counter_balance reached, ?_, ?_, ?_⟩
  · intro t here
    exact acquire_ready ((sound reached).ready t .acquire here)
  · intro free t asleep
    exact parked_supplied supply reached free asleep
  · intro left t asleep
    exact parked_attended supply single_notify reached left asleep

/-- Threads 0 and 1 are parked when thread 2 releases a permit and wakes thread 0, which
has yet to lock. -/
theorem permits_conserved_one_woken :
    ∃ (trace : List (Label (Fin 3))) (s : State (Fin 3)),
      run (restricted (step operations) permitsFit) (init 0) trace = some s ∧ s.mutex = none ∧
      (s.pc 1).isParked = true ∧ s.data = 1 ∧ acquires trace = 0 ∧ releases trace = 1 ∧
      s.data.toNat ≤ headcount Pc.notified s.pc := by
  have ran : run (restricted (step operations) permitsFit) (init 0 : State (Fin 3))
      [(0, .invoke .acquire), (0, .lock .acquire), (0, .wait .acquire),
        (1, .invoke .acquire), (1, .lock .acquire), (1, .wait .acquire),
        (2, .invoke .release), (2, .lock .release), (2, .pass .release), (2, .act .release 0),
        (2, .notifyOne () (some 0)), (2, .unlock ())] = some _ := rfl
  rcases permits_conserved (run_reaches ran) with ⟨_, _, parked, _⟩
  exact ⟨_, _, ran, rfl, rfl, rfl, rfl, rfl, parked rfl 1 rfl⟩

/-! How far the calls get. -/

def wakes : Call → ℕ
  | .acquire => 0
  | .release => 1

theorem notifies (threads : ℕ) : Notifies operations threads wakes where
  one call counter signal := by
    cases call with
    | acquire => cases signal
    | release => exact le_refl 1
  all call counter signal := absurd signal (single_notify call counter)

def acquireCalls (trace : List (Label Thread)) : ℕ := (calls trace).countP takes

def releaseCalls (trace : List (Label Thread)) : ℕ := (calls trace).countP fun call => !takes call

omit [Fintype Thread] [DecidableEq Thread] in
theorem acquires_sections (trace : List (Label Thread)) :
    acquires trace = (sections trace).countP fun entry => takes entry.1 := by
  rw [sections, List.countP_filterMap]
  refine List.countP_congr fun label _ => ?_
  obtain ⟨t, op⟩ := label
  cases op with
  | act call found => cases call <;> simp [decrements, sectionOf, takes]
  | _ => simp [decrements, sectionOf]

omit [Fintype Thread] [DecidableEq Thread] in
theorem releases_sections (trace : List (Label Thread)) :
    releases trace = (sections trace).countP fun entry => !takes entry.1 := by
  rw [sections, List.countP_filterMap]
  refine List.countP_congr fun label _ => ?_
  obtain ⟨t, op⟩ := label
  cases op with
  | act call found => cases call <;> simp [increments, sectionOf, takes]
  | _ => simp [increments, sectionOf]

theorem charged_calls (made : List Call) : (made.map fun call => 7 + 2 * wakes call).sum =
    7 * made.countP takes + 9 * made.countP fun call => !takes call := by
  induction made with
  | nil => rfl
  | cons call rest ih =>
      rw [List.map_cons, List.sum_cons, ih, List.countP_cons, List.countP_cons]
      cases call with
      | acquire =>
          change 7 + 2 * 0 + _ = 7 * (_ + 1) + 9 * (_ + 0)
          omega
      | release =>
          change 7 + 2 * 1 + _ = 7 * (_ + 0) + 9 * (_ + 1)
          omega

theorem attentive (initial : UInt64) : Attentive Thread operations initial := by
  intro trace s t call reached idle parked
  obtain ⟨taking, none'⟩ := idle.starved supply reached parked
  cases call with
  | release => cases taking
  | acquire =>
      have zero : s.data = 0 := UInt64.toNat_inj.mp none'
      rw [zero]
      rfl

/-- As long as no Release overflows the counter, calls of a semaphore come to an end of their
steps, altogether seven for each Acquire, nine for each Release and three for each spurious
wake-up. Where none of them can go on, every Release has returned, and as many Acquires as
there were permits for, in whatever order all came. -/
theorem permits_used_up (reached : Reaches (step operations) permitsFit (init initial) trace s) :
    trace.length ≤ 7 * acquireCalls trace + 9 * releaseCalls trace + 3 * spurious trace ∧
    (Idle operations s →
      (∀ t, s.pc t = .outside ∨ s.pc t = .parked .acquire) ∧
      releases trace = releaseCalls trace ∧
      acquires trace = min (acquireCalls trace) (initial.toNat + releaseCalls trace)) := by
  constructor
  · have bound := length_le_calls (notifies _) reached
    rw [charged_calls] at bound
    exact bound
  · intro idle
    have threads (t : Thread) : s.pc t = .outside ∨ s.pc t = .parked .acquire := by
      rcases idle.threads (sound reached) t with outside | ⟨call, parked⟩
      · exact .inl outside
      · have taking := (idle.starved supply reached parked).1
        cases call with
        | acquire => exact .inr parked
        | release => cases taking
    have released := calls_done (fun call => !takes call) reached
    have acquired := calls_done takes reached
    have balance := counter_balance reached
    have none' : headcount (Pc.pending fun call => !takes call) s.pc = 0 :=
      idle.nobody_pending supply reached (by simp)
    rw [← releases_sections, none'] at released
    rw [← acquires_sections] at acquired
    refine ⟨threads, released.symm, ?_⟩
    simp only [acquireCalls, releaseCalls]
    by_cases waiting : headcount (Pc.pending takes) s.pc = 0
    · omega
    · have empty := idle.exhausted supply reached waiting
      omega

/-- Of two Acquires that waited for the one permit, the one that was not notified got it. -/
theorem permits_used_up_overtaken :
    ∃ (trace : List (Label (Fin 3))) (s : State (Fin 3)),
      run (restricted (step operations) permitsFit) (init 0) trace = some s ∧
      trace.length ≤ 23 ∧ acquires trace = 1 := by
  let trace : List (Label (Fin 3)) :=
    [(0, .invoke .acquire), (0, .lock .acquire), (0, .wait .acquire),
      (2, .invoke .release), (2, .lock .release), (2, .pass .release),
      (2, .act .release 0), (2, .notifyOne () (some 0)), (2, .unlock ()),
      (1, .invoke .acquire), (1, .lock .acquire), (1, .pass .acquire),
      (1, .act .acquire 1), (1, .unlock ()), (0, .relock .acquire true),
      (0, .wait .acquire)]
  have ran : run (restricted (step operations) permitsFit) (init 0 : State (Fin 3)) trace =
      some _ := rfl
  obtain ⟨bound, settled⟩ := permits_used_up (run_reaches ran)
  refine ⟨trace, _, ran, bound, (settled (idle_of_threads fun t => ?_)).2.2⟩
  match t with
  | 0 => exact .inr ⟨.acquire, rfl⟩
  | 1 | 2 => exact .inl rfl

end Permits
end ConcurrencyCourse.Semaphore
