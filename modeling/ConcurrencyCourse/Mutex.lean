import ConcurrencyCourse.Interleaving
import ConcurrencyCourse.Headcount
import ConcurrencyCourse.Fairness

/-!
`stdlike::Mutex` of tasks/mutex/mutex/mutex.hpp, one label per atomic operation
on `flag`. `flag.wait(2)` is the loop of the readme: `load`, and while it reads 2
a `futexWait` that parks only if the word is still 2. The word remembers that
somebody may sleep (value 2); the proofs below follow who owns the word in each
window and who still owes a wake-up.
-/

namespace ConcurrencyCourse.Mutex

open Interleaving Headcount

/-- Program points of a thread that repeats Lock(); critical section; Unlock().
`exchange` is the one before `flag.exchange(2)`, on entry to the slow path as
well as at the end of each turn of the waiting loop. -/
inductive Pc where
  | outside
  | cmpxchg
  | exchange
  | load
  | futexWait
  | parked
  | critical
  | store
  | notify
  deriving DecidableEq

inductive Op (Thread : Type) where
  | callLock
  | cmpxchg
  | exchange
  | load
  | futexWait
  | spuriousWake
  | fetchSub
  | store
  | notifyOne (woken : Option Thread)

structure State (Thread : Type) where
  flag : UInt32
  pc : Thread → Pc

variable {Thread : Type}

def init : State Thread := { flag := 0, pc := fun _ => .outside }

/-- `compare_exchange_strong` leaves the old word in `expected` whether or not it
succeeds, so the lambda of the source answers the old word. -/
def cmpxchg (atom expected desired : UInt32) : UInt32 × UInt32 :=
  if atom = expected then (desired, expected) else (atom, atom)

def whileCounter (counter : UInt32) : Pc := if counter ≠ 0 then .load else .critical

def afterCmpxchg (counter : UInt32) : Pc :=
  if counter ≠ 0 then (if counter ≠ 2 then .exchange else whileCounter counter) else .critical

def Pc.isParked : Pc → Bool
  | .parked => true
  | _ => false

variable [Fintype Thread]

section Step
variable [DecidableEq Thread]

def step (s : State Thread) : Thread × Op Thread → Option (State Thread)
  | (t, .callLock) => guarded (s.pc t = .outside)
      { s with pc := Function.update s.pc t .cmpxchg }
  | (t, .cmpxchg) => guarded (s.pc t = .cmpxchg)
      { flag := (cmpxchg s.flag 0 1).1
        pc := Function.update s.pc t (afterCmpxchg (cmpxchg s.flag 0 1).2) }
  | (t, .exchange) => guarded (s.pc t = .exchange)
      { flag := 2, pc := Function.update s.pc t (whileCounter s.flag) }
  | (t, .load) => guarded (s.pc t = .load)
      { s with pc := Function.update s.pc t (if s.flag = 2 then .futexWait else .exchange) }
  | (t, .futexWait) => guarded (s.pc t = .futexWait)
      { s with pc := Function.update s.pc t (if s.flag = 2 then .parked else .load) }
  | (t, .spuriousWake) => guarded (s.pc t = .parked)
      { s with pc := Function.update s.pc t .load }
  | (t, .fetchSub) => guarded (s.pc t = .critical)
      { flag := s.flag - 1
        pc := Function.update s.pc t (if s.flag ≠ 1 then .store else .outside) }
  | (t, .store) => guarded (s.pc t = .store)
      { flag := 0, pc := Function.update s.pc t .notify }
  | (t, .notifyOne woken) => guarded (s.pc t = .notify ∧ Wakes Pc.isParked s.pc woken)
      { s with pc := Function.update (wakeOne .load s.pc woken) t .outside }

end Step

/-- Owning the mutex, the window of Unlock between `fetch_sub` and `store` included. -/
def Pc.owns : Pc → Bool
  | .critical | .store => true
  | _ => false

def Pc.releasing : Pc → Bool
  | .store | .notify => true
  | _ => false

/-- Inside Lock after a failed `compare_exchange`, and not parked. -/
def Pc.contending : Pc → Bool
  | .exchange | .load | .futexWait => true
  | _ => false

def Held (s : State Thread) : Prop :=
  (s.flag = 0 ∧ headcount Pc.owns s.pc = 0) ∨
    ((s.flag = 1 ∨ s.flag = 2) ∧ headcount Pc.owns s.pc = 1)

/-- Somebody owes the sleepers a wake-up: the owner who will find 2 in the word,
a thread on its way to `notify_one`, or a thread that will still put 2 back. -/
def Owed (s : State Thread) : Prop :=
  0 < headcount Pc.isParked s.pc →
    s.flag = 2 ∨ 0 < headcount Pc.releasing s.pc ∨ 0 < headcount Pc.contending s.pc

theorem owner_busy {s : State Thread} {t : Thread} (held : Held s)
    (owner : (s.pc t).owns = true) :
    (s.flag = 1 ∨ s.flag = 2) ∧ headcount Pc.owns s.pc = 1 := by
  have some' : 0 < headcount Pc.owns s.pc := headcount_pos_of owner
  rcases held with ⟨_, none⟩ | busy
  · omega
  · exact busy

theorem owed_contending {s : State Thread} {t : Thread} (here : (s.pc t).contending = true) :
    Owed s := fun _ => Or.inr (Or.inr (headcount_pos_of here))

theorem owed_releasing {s : State Thread} {t : Thread} (here : (s.pc t).releasing = true) :
    Owed s := fun _ => Or.inr (Or.inl (headcount_pos_of here))

variable [DecidableEq Thread]

theorem held_move {s : State Thread} {t : Thread} {next : Pc} (held : Held s)
    (same : next.owns = (s.pc t).owns) :
    Held { s with pc := Function.update s.pc t next } := by
  simpa only [Held, headcount_still same] using held

theorem held_step (s after : State Thread) (label : Thread × Op Thread) (held : Held s)
    (taken : step s label = some after) : Held after := by
  obtain ⟨t, op⟩ := label
  cases op with
  | callLock =>
      obtain ⟨here, rfl⟩ := guarded_eq_some.mp taken
      exact held_move held (by simp [here, Pc.owns])
  | cmpxchg =>
      obtain ⟨here, rfl⟩ := guarded_eq_some.mp taken
      have outside : (s.pc t).owns = false := by simp [here, Pc.owns]
      -- A free mutex is taken here; a busy one leaves the word as it is.
      rcases held with ⟨free, none⟩ | ⟨busy, one⟩
      · refine Or.inr ⟨Or.inl (by simp [free, cmpxchg]), ?_⟩
        rw [headcount_enter outside (by simp [free, cmpxchg, afterCmpxchg, Pc.owns]), none]
      · have kept : cmpxchg s.flag 0 1 = (s.flag, s.flag) := by
          rcases busy with one' | two <;> simp [cmpxchg, *]
        refine Or.inr ⟨by simpa [kept] using busy, ?_⟩
        rw [kept, headcount_still, one]
        rcases busy with one' | two <;> simp [afterCmpxchg, whileCounter, Pc.owns, *]
  | exchange =>
      obtain ⟨here, rfl⟩ := guarded_eq_some.mp taken
      have outside : (s.pc t).owns = false := by simp [here, Pc.owns]
      refine Or.inr ⟨Or.inr rfl, ?_⟩
      rcases held with ⟨free, none⟩ | ⟨busy, one⟩
      · rw [headcount_enter outside (by simp [free, whileCounter, Pc.owns]), none]
      · rw [headcount_still, one]
        rcases busy with one' | two <;> simp [whileCounter, Pc.owns, *]
  | load =>
      obtain ⟨here, rfl⟩ := guarded_eq_some.mp taken
      exact held_move held (by split <;> simp [here, Pc.owns])
  | futexWait =>
      obtain ⟨here, rfl⟩ := guarded_eq_some.mp taken
      exact held_move held (by split <;> simp [here, Pc.owns])
  | spuriousWake =>
      obtain ⟨here, rfl⟩ := guarded_eq_some.mp taken
      exact held_move held (by simp [here, Pc.owns])
  | fetchSub =>
      obtain ⟨here, rfl⟩ := guarded_eq_some.mp taken
      have owner : (s.pc t).owns = true := by simp [here, Pc.owns]
      -- From 1 the release is complete; from 2 the word is 1 until the store.
      obtain ⟨fast | slow, one⟩ := owner_busy held owner
      · refine Or.inl ⟨by simp [fast], ?_⟩
        have left : headcount Pc.owns (Function.update s.pc t
            (if s.flag ≠ 1 then .store else .outside)) + 1 = headcount Pc.owns s.pc :=
          headcount_leave owner (by simp [fast, Pc.owns])
        simp only
        omega
      · refine Or.inr ⟨Or.inl (by simp only [slow]; rfl), ?_⟩
        rw [headcount_still (by simp [slow, here, Pc.owns]), one]
  | store =>
      obtain ⟨here, rfl⟩ := guarded_eq_some.mp taken
      have owner : (s.pc t).owns = true := by simp [here, Pc.owns]
      have left : headcount Pc.owns (Function.update s.pc t .notify) + 1 =
          headcount Pc.owns s.pc := headcount_leave owner rfl
      refine Or.inl ⟨rfl, ?_⟩
      have one := (owner_busy held owner).2
      simp only
      omega
  | notifyOne woken =>
      obtain ⟨⟨here, wakes⟩, rfl⟩ := guarded_eq_some.mp taken
      have awake := wakeOne_awake .load wakes (t := t) (by simp [here, Pc.isParked])
      have quiet : headcount Pc.owns (wakeOne .load s.pc woken) = headcount Pc.owns s.pc :=
        headcount_wakeOne wakes (by intro p asleep; cases p <;> simp_all [Pc.isParked, Pc.owns])
      rw [Held, headcount_still (by simp [awake, here, Pc.owns]), quiet]
      exact held

theorem owed_move {s : State Thread} {t : Thread} {next : Pc} (owed : Owed s)
    (parked : next.isParked = (s.pc t).isParked) (releasing : next.releasing = (s.pc t).releasing)
    (contending : next.contending = (s.pc t).contending) :
    Owed { s with pc := Function.update s.pc t next } := by
  simpa only [Owed, headcount_still parked, headcount_still releasing,
    headcount_still contending] using owed

theorem owed_step (s after : State Thread) (label : Thread × Op Thread) (held : Held s)
    (owed : Owed s) (taken : step s label = some after) : Owed after := by
  obtain ⟨t, op⟩ := label
  cases op with
  | callLock =>
      obtain ⟨here, rfl⟩ := guarded_eq_some.mp taken
      exact owed_move owed (by simp [here, Pc.isParked]) (by simp [here, Pc.releasing])
        (by simp [here, Pc.contending])
  | cmpxchg =>
      obtain ⟨here, rfl⟩ := guarded_eq_some.mp taken
      rcases held with ⟨free, _⟩ | ⟨busy, _⟩
      · -- The fast path turns 0 into 1 behind the sleepers' back; whoever owed them still does.
        have owing : Owed { s with pc := Function.update s.pc t .critical } :=
          owed_move owed (by simp [here, Pc.isParked]) (by simp [here, Pc.releasing])
            (by simp [here, Pc.contending])
        intro sleepers
        have still := owing (by simpa [free, cmpxchg, afterCmpxchg] using sleepers)
        simpa [free, cmpxchg, afterCmpxchg] using still
      · refine owed_contending (t := t) ?_
        rcases busy with one | two <;>
          simp [cmpxchg, afterCmpxchg, whileCounter, Pc.contending, *]
  | exchange =>
      obtain ⟨_, rfl⟩ := guarded_eq_some.mp taken
      exact fun _ => Or.inl rfl
  | load =>
      obtain ⟨_, rfl⟩ := guarded_eq_some.mp taken
      exact owed_contending (t := t) (by simp only [Function.update_self]; split <;> rfl)
  | futexWait =>
      obtain ⟨_, rfl⟩ := guarded_eq_some.mp taken
      -- The new sleeper sleeps on a 2, which it leaves to the owner.
      by_cases two : s.flag = 2
      · exact fun _ => Or.inl two
      · exact owed_contending (t := t) (by simp [two, Pc.contending])
  | spuriousWake =>
      obtain ⟨_, rfl⟩ := guarded_eq_some.mp taken
      exact owed_contending (t := t) (by simp [Pc.contending])
  | fetchSub =>
      obtain ⟨here, rfl⟩ := guarded_eq_some.mp taken
      -- An owner that finds 1 owes nothing: the debt was somebody else's.
      by_cases fast : s.flag = 1
      · have owing : Owed { s with pc := Function.update s.pc t .outside } :=
          owed_move owed (by simp [here, Pc.isParked]) (by simp [here, Pc.releasing])
            (by simp [here, Pc.contending])
        intro sleepers
        have still := owing (by simpa [fast] using sleepers)
        simpa [fast] using still
      · exact owed_releasing (t := t) (by simp [fast, Pc.releasing])
  | store =>
      obtain ⟨_, rfl⟩ := guarded_eq_some.mp taken
      exact owed_releasing (t := t) (by simp [Pc.releasing])
  | notifyOne woken =>
      obtain ⟨⟨here, wakes⟩, rfl⟩ := guarded_eq_some.mp taken
      cases woken with
      | none =>
          intro sleepers
          obtain ⟨u, asleep⟩ := headcount_pos.mp sleepers
          by_cases self : u = t
          · simp [self, Pc.isParked] at asleep
          · simp [self, wakeOne, wakes u] at asleep
      | some u =>
          -- The woken thread goes back to its exchange and puts 2 into the word.
          have different : u ≠ t := by
            rintro rfl
            simp [Wakes, here, Pc.isParked] at wakes
          exact owed_contending (t := u) (by simp [different, wakeOne, Pc.contending])

def Reachable (s : State Thread) : Prop :=
  ∃ trace, Reaches step unrestricted init trace s

theorem reachable_invariant {s : State Thread} (reachable : Reachable s) : Held s ∧ Owed s := by
  obtain ⟨trace, reached⟩ := reachable
  induction reached with
  | start =>
      exact ⟨Or.inl ⟨rfl, headcount_eq_zero.mpr fun _ => rfl⟩,
        fun sleepers => by simp [headcount, init, Pc.isParked] at sleepers⟩
  | next label _ _ taken ih =>
      exact ⟨held_step _ _ label ih.1 taken, owed_step _ _ label ih.1 ih.2 taken⟩

/-- Mutual exclusion, with the window of Unlock counted as owning: at most one
owner, a word of 0, 1 or 2 that `fetch_sub` never takes below 0, and 0 exactly
when nobody owns the mutex. -/
theorem mutual_exclusion (s : State Thread) (reachable : Reachable s) :
    (∀ t u, (s.pc t).owns = true → (s.pc u).owns = true → t = u) ∧
      (s.flag = 0 ∨ s.flag = 1 ∨ s.flag = 2) ∧
      (∀ t, s.pc t = .critical → s.flag ≠ 0) ∧
      (s.flag = 0 ↔ ∀ t, (s.pc t).owns = false) := by
  have held := (reachable_invariant reachable).1
  refine ⟨?_, ?_, ?_, ?_⟩
  · intro t u first second
    exact headcount_unique (owner_busy held first).2.le first second
  · rcases held with ⟨free, _⟩ | ⟨busy, _⟩
    · exact Or.inl free
    · exact Or.inr busy
  · intro t here free
    rcases (owner_busy held (t := t) (by simp [here, Pc.owns])).1 with one | two <;>
      simp [free] at *
  · rw [← headcount_eq_zero]
    rcases held with ⟨free, none⟩ | ⟨one | two, owner⟩
    · simp [free, none]
    · simp [one, owner]
    · simp [two, owner]

def contended : List (Bool × Op Bool) :=
  [(false, .callLock), (false, .cmpxchg), (true, .callLock), (true, .cmpxchg),
    (true, .exchange), (true, .load), (true, .futexWait)]

theorem contended_runs : ∃ s : State Bool, run step init contended = some s ∧
    s.pc false = .critical ∧ s.pc true = .parked ∧ s.flag = 2 := by
  have ran : run step (init : State Bool) contended = some _ := rfl
  exact ⟨_, ran, rfl, rfl, rfl⟩

theorem mutual_exclusion_contended : ∃ s : State Bool, run step init contended = some s ∧
    s.pc false = .critical ∧ s.pc true = .parked ∧ s.flag = 2 ∧
    (∀ t u, (s.pc t).owns = true → (s.pc u).owns = true → t = u) ∧
      (s.flag = 0 ↔ ∀ t, (s.pc t).owns = false) := by
  obtain ⟨s, ran, inside, asleep, two⟩ := contended_runs
  have exclusion := mutual_exclusion s ⟨_, run_free ran⟩
  exact ⟨s, ran, inside, asleep, two, exclusion.1, exclusion.2.2.2⟩

/-- No lost wake-up: in every state with a parked thread, the owner will find 2
in the word, or a thread is on its way to `notify_one`, or a thread that is awake
inside Lock has yet to put 2 back. -/
theorem no_lost_wakeup (s : State Thread) (reachable : Reachable s) (sleeper : Thread)
    (asleep : s.pc sleeper = .parked) :
    ((s.flag = 2 ∧ ∃ t, (s.pc t).owns = true) ∨ (∃ t, (s.pc t).releasing = true) ∨
        ∃ t, (s.pc t).contending = true) ∧
      ¬ ∀ t, t ≠ sleeper → s.pc t = .parked ∨ s.pc t = .outside := by
  obtain ⟨held, owed⟩ := reachable_invariant reachable
  have responsible : (s.flag = 2 ∧ ∃ t, (s.pc t).owns = true) ∨
      (∃ t, (s.pc t).releasing = true) ∨ ∃ t, (s.pc t).contending = true := by
    rcases owed (headcount_pos_of (t := sleeper) (by simp [asleep, Pc.isParked])) with
      two | releasing | contending
    · refine Or.inl ⟨two, headcount_pos.mp ?_⟩
      rcases held with ⟨free, _⟩ | ⟨_, owner⟩
      · simp [two] at free
      · omega
    · exact Or.inr (Or.inl (headcount_pos.mp releasing))
    · exact Or.inr (Or.inr (headcount_pos.mp contending))
  refine ⟨responsible, fun idle => ?_⟩
  have away (t : Thread) : s.pc t = .parked ∨ s.pc t = .outside := by
    by_cases self : t = sleeper
    · exact Or.inl (self ▸ asleep)
    · exact idle t self
  rcases responsible with ⟨_, t, active⟩ | ⟨t, active⟩ | ⟨t, active⟩ <;>
    rcases away t with there | there <;>
    simp [there, Pc.owns, Pc.releasing, Pc.contending] at active

theorem no_lost_wakeup_contended : ∃ s : State Bool, run step init contended = some s ∧
    s.pc true = .parked ∧
    ((s.flag = 2 ∧ ∃ t, (s.pc t).owns = true) ∨ (∃ t, (s.pc t).releasing = true) ∨
        ∃ t, (s.pc t).contending = true) ∧
      ¬ ∀ t, t ≠ true → s.pc t = .parked ∨ s.pc t = .outside := by
  obtain ⟨s, ran, _, asleep, _⟩ := contended_runs
  exact ⟨s, ran, asleep, no_lost_wakeup s ⟨_, run_free ran⟩ true asleep⟩

section Uncontended
variable {s after : State Thread} {t u : Thread} {op : Op Thread}
  {early span : List (Thread × Op Thread)}

theorem idle_free (reachable : Reachable s) (idle : ∀ u, s.pc u = .outside) : s.flag = 0 := by
  have unowned : headcount Pc.owns s.pc = 0 := headcount_eq_zero.mpr fun u => by
    rw [idle u]
    rfl
  rcases (reachable_invariant reachable).1 with ⟨free, _⟩ | ⟨_, one⟩
  · exact free
  · omega

def Op.fast : Op Thread → Bool
  | .callLock | .cmpxchg | .fetchSub => true
  | _ => false

structure Alone (t : Thread) (s : State Thread) : Prop where
  others : ∀ u, u ≠ t → s.pc u = .outside
  word : s.pc t = .outside ∧ s.flag = 0 ∨ s.pc t = .cmpxchg ∧ s.flag = 0 ∨
    s.pc t = .critical ∧ s.flag = 1

theorem outside_calls (here : s.pc u = .outside) (taken : step s (u, op) = some after) :
    after.pc u ≠ .outside := by
  cases op with
  | callLock =>
      rcases guarded_eq_some.mp taken with ⟨_, rfl⟩
      simp
  | _ => simp [step, here] at taken

theorem alone_step (alone : Alone t s) (others : ∀ u, u ≠ t → after.pc u = .outside)
    (taken : step s (u, op) = some after) : op.fast = true ∧ Alone t after := by
  have mine : u = t := by
    by_contra other
    exact outside_calls (alone.others u other) taken (others u other)
  subst mine
  cases op with
  | callLock =>
      rcases guarded_eq_some.mp taken with ⟨here, rfl⟩
      have free : s.flag = 0 := by simpa [here] using alone.word
      exact ⟨rfl, others, .inr (.inl ⟨by simp, free⟩)⟩
  | cmpxchg =>
      rcases guarded_eq_some.mp taken with ⟨here, rfl⟩
      have free : s.flag = 0 := by simpa [here] using alone.word
      exact ⟨rfl, others, .inr (.inr (by simp [free, cmpxchg, afterCmpxchg]))⟩
  | fetchSub =>
      rcases guarded_eq_some.mp taken with ⟨here, rfl⟩
      have one : s.flag = 1 := by simpa [here] using alone.word
      exact ⟨rfl, others, .inl (by simp [one])⟩
  | notifyOne woken =>
      rcases guarded_eq_some.mp taken with ⟨⟨here, _⟩, _⟩
      simpa [here] using alone.word
  | _ =>
      rcases guarded_eq_some.mp taken with ⟨here, _⟩
      simpa [here] using alone.word

theorem alone_start (reached : Reaches step unrestricted init (early ++ [(t, .callLock)]) s)
    (others : ∀ u, u ≠ t → s.pc u = .outside) : Alone t s := by
  rcases reaches_snoc.mp reached with ⟨before, earlier, _, taken⟩
  rcases guarded_eq_some.mp taken with ⟨here, rfl⟩
  have idle : ∀ u, before.pc u = .outside := by
    intro u
    by_cases same : u = t
    · rw [same, here]
    · simpa [same] using others u same
  have free : before.flag = 0 := idle_free ⟨early, earlier⟩ idle
  exact ⟨others, .inr (.inl ⟨by simp, free⟩)⟩

theorem alone_span
    (reached : Reaches step unrestricted init (early ++ (t, .callLock) :: span) s)
    (uncontended : ∀ part s', part <+: span →
      Reaches step unrestricted init (early ++ (t, .callLock) :: part) s' →
      ∀ u, u ≠ t → s'.pc u = .outside) :
    Alone t s ∧ ∀ label ∈ span, label.2.fast = true := by
  induction span using List.reverseRecOn generalizing s with
  | nil => exact ⟨alone_start reached (uncontended [] s (List.prefix_refl _) reached), nofun⟩
  | append_singleton span last ih =>
      have others := uncontended (span ++ [last]) s (List.prefix_refl _) reached
      rw [← List.cons_append, ← List.append_assoc] at reached
      rcases reaches_snoc.mp reached with ⟨before, earlier, _, taken⟩
      rcases ih earlier fun part s' shorter =>
        uncontended part s' (shorter.trans (List.prefix_append span [last])) with ⟨alone, fast⟩
      rcases alone_step alone others taken with ⟨quick, still⟩
      refine ⟨still, fun label member => ?_⟩
      rcases List.mem_append.mp member with old | new
      · exact fast label old
      · rw [List.mem_singleton.mp new]
        exact quick

/-- A mutex that is not contended stays out of the kernel. While no other thread is between
the start of its Lock and the end of its Unlock, the one that called Lock neither waits nor
notifies, whatever happened before; and whenever no thread at all is there, the word is 0
and nobody is parked. -/
theorem uncontended_fast
    (reached : Reaches step unrestricted init (early ++ (t, .callLock) :: span) s)
    (uncontended : ∀ part s', part <+: span →
      Reaches step unrestricted init (early ++ (t, .callLock) :: part) s' →
      ∀ u, u ≠ t → s'.pc u = .outside) :
    (∀ op, (t, op) ∈ span →
      op ≠ .load ∧ op ≠ .futexWait ∧ op ≠ .store ∧ ∀ woken, op ≠ .notifyOne woken) ∧
    ∀ s' : State Thread, Reachable s' → (∀ u, s'.pc u = .outside) →
      s'.flag = 0 ∧ ∀ u, s'.pc u ≠ .parked := by
  constructor
  · intro op member
    have fast := (alone_span reached uncontended).2 (t, op) member
    cases op <;> simp_all [Op.fast]
  · intro s' reachable idle
    refine ⟨idle_free reachable idle, fun u asleep => ?_⟩
    rw [idle u] at asleep
    cases asleep

/-- Thread false parks while thread true has the mutex; when both are through, thread true
has it to itself. -/
theorem uncontended_fast_again :
    ∃ (early : List (Bool × Op Bool)) (s : State Bool),
      (false, .futexWait) ∈ early ∧
      run step init (early ++ [(true, .callLock), (true, .cmpxchg), (true, .fetchSub)]) = some s ∧
      s.flag = 0 ∧ ∀ op, (true, op) ∈ [((true, .cmpxchg) : Bool × Op Bool), (true, .fetchSub)] →
        op ≠ .load ∧ op ≠ .futexWait ∧ op ≠ .store ∧ ∀ woken, op ≠ .notifyOne woken := by
  have ran : run step (init : State Bool)
      ([(true, .callLock), (true, .cmpxchg), (false, .callLock), (false, .cmpxchg),
        (false, .exchange), (false, .load), (false, .futexWait), (true, .fetchSub),
        (true, .store), (true, .notifyOne (some false)), (false, .load), (false, .exchange),
        (false, .fetchSub), (false, .store), (false, .notifyOne none)] ++
        [(true, .callLock), (true, .cmpxchg), (true, .fetchSub)]) = some _ := rfl
  refine ⟨_, _, by simp, ran, rfl, (uncontended_fast (run_free ran) ?_).1⟩
  rintro part s' shorter reached u other
  have here : u = false := by simpa using other
  subst here
  simp only [List.prefix_cons_iff, List.prefix_nil] at shorter
  rcases shorter with rfl | ⟨_, rfl, rfl | ⟨_, rfl, rfl⟩⟩
  · cases reached.runs
    rfl
  · cases reached.runs
    rfl
  · cases reached.runs
    rfl

end Uncontended

/-! Progress under weak fairness. Threads inside Lock or Unlock owe steps, the owner owes
its Unlock, and the futex owes no spurious wake-up. -/
section Progress
open Fairness

def owes (t : Thread) (_ : State Thread) (label : Thread × Op Thread) : Prop :=
  label.1 = t ∧ label.2 ≠ .callLock ∧ label.2 ≠ .spuriousWake

def Pc.inLock : Pc → Bool
  | .cmpxchg | .exchange | .load | .futexWait | .parked => true
  | _ => false

/-- How many steps of its own lead a thread that is awake to a free mutex. -/
def Pc.distance : Pc → ℕ
  | .cmpxchg | .exchange => 1
  | .load => 2
  | .futexWait => 3
  | _ => 0

def Acquired (s : State Thread) : Prop := ∃ u, s.pc u = .critical

variable {s after : State Thread} {t u : Thread} {label : Thread × Op Thread}

theorem pc_elsewhere (taken : step s label = some after) (other : u ≠ label.1) :
    after.pc u = s.pc u ∨ s.pc u = .parked ∧ after.pc u = .load := by
  obtain ⟨v, op⟩ := label
  have different : u ≠ v := other
  cases op with
  | callLock | cmpxchg | exchange | load | futexWait | spuriousWake | fetchSub | store =>
      rcases guarded_eq_some.mp taken with ⟨-, rfl⟩
      exact .inl (by simp [different])
  | notifyOne woken =>
      rcases guarded_eq_some.mp taken with ⟨⟨-, wakes⟩, rfl⟩
      simp only [Function.update_of_ne different]
      rcases wakeOne_cases .load wakes u with same | ⟨asleep, woken'⟩
      · exact .inl same
      · refine .inr ⟨?_, woken'⟩
        cases here : s.pc u <;> simp_all [Pc.isParked]

theorem inLock_step (taken : step s label = some after) (inside : (s.pc u).inLock = true) :
    (after.pc u).inLock = true ∨ after.pc u = .critical := by
  by_cases self : u = label.1
  · obtain ⟨v, op⟩ := label
    have same : u = v := self
    subst same
    cases op with
    | callLock | fetchSub | store =>
        rw [(guarded_eq_some.mp taken).1] at inside
        cases inside
    | notifyOne =>
        rw [(guarded_eq_some.mp taken).1.1] at inside
        cases inside
    | cmpxchg =>
        rcases guarded_eq_some.mp taken with ⟨-, rfl⟩
        simp only [Function.update_self, afterCmpxchg, whileCounter]
        split_ifs <;> simp [Pc.inLock]
    | exchange =>
        rcases guarded_eq_some.mp taken with ⟨-, rfl⟩
        simp only [Function.update_self, whileCounter]
        split_ifs <;> simp [Pc.inLock]
    | load | futexWait | spuriousWake =>
        rcases guarded_eq_some.mp taken with ⟨-, rfl⟩
        simp only [Function.update_self]
        try split_ifs
        all_goals simp [Pc.inLock]
  · rcases pc_elsewhere taken self with same | ⟨-, woken⟩
    · rw [same]
      exact .inl inside
    · rw [woken]
      exact .inl rfl

/-- While the word is 0 and nobody owns the mutex, the next change of the word is an
acquisition. -/
theorem free_step (free : s.flag = 0) (unowned : ¬ Acquired s)
    (taken : step s label = some after) : Acquired after ∨ after.flag = 0 := by
  obtain ⟨v, op⟩ := label
  cases op with
  | callLock | load | futexWait | spuriousWake | notifyOne =>
      rcases guarded_eq_some.mp taken with ⟨-, rfl⟩
      exact .inr free
  | cmpxchg =>
      rcases guarded_eq_some.mp taken with ⟨-, rfl⟩
      exact .inl ⟨v, by simp [cmpxchg, free, afterCmpxchg]⟩
  | exchange =>
      rcases guarded_eq_some.mp taken with ⟨-, rfl⟩
      exact .inl ⟨v, by simp [whileCounter, free]⟩
  | fetchSub => exact absurd ⟨v, (guarded_eq_some.mp taken).1⟩ unowned
  | store =>
      rcases guarded_eq_some.mp taken with ⟨-, rfl⟩
      exact .inr rfl

theorem closer_step (free : s.flag = 0) (awake : 0 < (s.pc u).distance) {op : Op Thread}
    (taken : step s (u, op) = some after) :
    after.pc u = .critical ∨
      0 < (after.pc u).distance ∧ (after.pc u).distance < (s.pc u).distance := by
  cases op with
  | callLock | spuriousWake | fetchSub | store =>
      rw [(guarded_eq_some.mp taken).1] at awake
      simp [Pc.distance] at awake
  | notifyOne =>
      rw [(guarded_eq_some.mp taken).1.1] at awake
      simp [Pc.distance] at awake
  | cmpxchg =>
      rcases guarded_eq_some.mp taken with ⟨-, rfl⟩
      simp [cmpxchg, free, afterCmpxchg]
  | exchange =>
      rcases guarded_eq_some.mp taken with ⟨-, rfl⟩
      simp [whileCounter, free]
  | load | futexWait =>
      rcases guarded_eq_some.mp taken with ⟨here, rfl⟩
      simp [here, free, Pc.distance]

theorem awake_ready (awake : 0 < (s.pc u).distance) : Ready step owes u s := by
  cases here : s.pc u with
  | outside | parked | critical | store | notify => simp [here, Pc.distance] at awake
  | cmpxchg => exact ⟨(u, .cmpxchg), ⟨rfl, by simp, by simp⟩, by simp [step, here]⟩
  | exchange => exact ⟨(u, .exchange), ⟨rfl, by simp, by simp⟩, by simp [step, here]⟩
  | load => exact ⟨(u, .load), ⟨rfl, by simp, by simp⟩, by simp [step, here]⟩
  | futexWait => exact ⟨(u, .futexWait), ⟨rfl, by simp, by simp⟩, by simp [step, here]⟩

omit [Fintype Thread] [DecidableEq Thread] in
theorem inLock_awake (inside : (s.pc u).inLock = true) (awake : (s.pc u).isParked = false) :
    0 < (s.pc u).distance := by
  cases here : s.pc u <;> simp_all [Pc.inLock, Pc.isParked, Pc.distance]

structure Free (s : State Thread) : Prop where
  word : s.flag = 0
  unowned : ¬ Acquired s

theorem awake_acquires (u : Thread) :
    Measure step owes (fun s => Free s ∧ 0 < (s.pc u).distance) Acquired
      (fun s => (s.pc u).distance) fun v _ => v = u := by
  refine ⟨fun _ _ => ⟨u, rfl⟩, ?_, ?_⟩
  · rintro s _ ⟨-, awake⟩ rfl
    exact awake_ready awake
  · rintro s u label after ⟨free, awake⟩ rfl taken
    by_cases acquired : Acquired after
    · exact .inl acquired
    have still : Free after :=
      ⟨(free_step free.word free.unowned taken).resolve_left acquired, acquired⟩
    obtain ⟨v, op⟩ := label
    by_cases self : u = v
    · subst self
      rcases closer_step free.word awake taken with got | ⟨positive, less⟩
      · exact absurd ⟨u, got⟩ acquired
      · exact .inr ⟨⟨still, positive⟩, .inl less⟩
    · rcases pc_elsewhere taken self with same | ⟨asleep, -⟩
      · exact .inr ⟨⟨still, by rw [same]; exact awake⟩,
          .inr ⟨by rw [same], rfl, fun owed => self owed.1.symm⟩⟩
      · simp [asleep, Pc.distance] at awake

theorem release_frees (r t : Thread) :
    Measure step owes
      (fun s => Held s ∧ s.pc r = .store ∧ ¬ Acquired s ∧ (s.pc t).inLock = true)
      (fun s => Acquired s ∨ Free s ∧ s.pc r = .notify ∧ (s.pc t).inLock = true)
      (fun _ => (0 : ℕ)) fun v _ => v = r := by
  refine ⟨fun _ _ => ⟨r, rfl⟩, ?_, ?_⟩
  · rintro s r ⟨-, here, -, -⟩ rfl
    exact ⟨(r, .store), ⟨rfl, by simp, by simp⟩, by simp [step, here]⟩
  · rintro s r label after ⟨held, here, unowned, inside⟩ rfl taken
    by_cases acquired : Acquired after
    · exact .inl (.inl acquired)
    have inside' := (inLock_step taken inside).resolve_right fun got => acquired ⟨t, got⟩
    by_cases self : r = label.1
    · obtain ⟨v, op⟩ := label
      have same : r = v := self
      subst same
      cases op with
      | store =>
          rcases guarded_eq_some.mp taken with ⟨-, rfl⟩
          exact .inl (.inr ⟨⟨rfl, acquired⟩, by simp, inside'⟩)
      | notifyOne =>
          have there := (guarded_eq_some.mp taken).1.1
          rw [here] at there
          cases there
      | callLock | cmpxchg | exchange | load | futexWait | spuriousWake | fetchSub =>
          have there := (guarded_eq_some.mp taken).1
          rw [here] at there
          cases there
    · rcases pc_elsewhere taken self with same | ⟨asleep, -⟩
      · exact .inr ⟨⟨held_step s after label held taken, same.trans here, acquired, inside'⟩,
          .inr ⟨rfl, rfl, fun owed => self owed.1.symm⟩⟩
      · rw [here] at asleep
        cases asleep

theorem notify_wakes (r t : Thread) :
    Measure step owes (fun s => Free s ∧ s.pc r = .notify ∧ (s.pc t).inLock = true)
      (fun s => Acquired s ∨ ∃ u, Free s ∧ 0 < (s.pc u).distance) (fun _ => (0 : ℕ))
      fun v _ => v = r := by
  refine ⟨fun _ _ => ⟨r, rfl⟩, ?_, ?_⟩
  · rintro s r ⟨-, here, -⟩ rfl
    obtain ⟨woken, wakes⟩ := wakes_exists Pc.isParked s.pc
    exact ⟨(r, .notifyOne woken), ⟨rfl, by simp, by simp⟩, by simp [step, here, wakes]⟩
  · rintro s r label after ⟨free, here, inside⟩ rfl taken
    by_cases acquired : Acquired after
    · exact .inl (.inl acquired)
    have still : Free after :=
      ⟨(free_step free.word free.unowned taken).resolve_left acquired, acquired⟩
    have inside' := (inLock_step taken inside).resolve_right fun got => acquired ⟨t, got⟩
    by_cases self : r = label.1
    · obtain ⟨v, op⟩ := label
      have same : r = v := self
      subst same
      cases op with
      | notifyOne woken =>
          refine .inl (.inr ?_)
          rcases guarded_eq_some.mp taken with ⟨⟨-, wakes⟩, rfl⟩
          cases woken with
          | some w =>
              have different : w ≠ r := by
                rintro rfl
                simp [Wakes, here, Pc.isParked] at wakes
              exact ⟨w, still, by simp [wakeOne, different, Pc.distance]⟩
          | none =>
              have different : t ≠ r := by
                rintro rfl
                simp [here, Pc.inLock] at inside
              exact ⟨t, still, by simpa [wakeOne, different] using inLock_awake inside (wakes t)⟩
      | callLock | cmpxchg | exchange | load | futexWait | spuriousWake | fetchSub | store =>
          have there := (guarded_eq_some.mp taken).1
          rw [here] at there
          cases there
    · rcases pc_elsewhere taken self with same | ⟨asleep, -⟩
      · exact .inr ⟨⟨still, same.trans here, inside'⟩,
          .inr ⟨rfl, rfl, fun owed => self owed.1.symm⟩⟩
      · rw [here] at asleep
        cases asleep

/-- Progress under weak fairness, without spurious wake-ups: whenever a thread is inside
Lock, parked or not, some thread owns the mutex then or later. -/
theorem somebody_acquires (e : Execution step (init : State Thread)) (fair : e.Fair owes)
    (t : Thread) :
    e.LeadsTo (fun s => (s.pc t).inLock = true) fun s => ∃ u, s.pc u = .critical := by
  have awake : e.LeadsTo (fun s => ∃ u, Free s ∧ 0 < (s.pc u).distance) Acquired :=
    fun n ⟨u, waits⟩ => (awake_acquires u).leadsTo fair n waits
  have arrived : e.LeadsTo Acquired Acquired := Execution.LeadsTo.arrived fun _ there => there
  have notified (r : Thread) := ((notify_wakes r t).leadsTo fair).through (arrived.either awake)
  have released (r : Thread) :=
    ((release_frees r t).leadsTo fair).through (arrived.either (notified r))
  intro n inside
  obtain ⟨held, owed⟩ := reachable_invariant (e.reaches n)
  by_cases acquired : Acquired (e.state n)
  · exact arrived n acquired
  rcases held with ⟨free, nobody⟩ | ⟨busy, one⟩
  · cases asleep : ((e.state n).pc t).isParked with
    | false => exact awake n ⟨t, ⟨free, acquired⟩, inLock_awake inside asleep⟩
    | true =>
        -- Somebody owes the sleeper a wake-up; with the word at 0 it is not the owner.
        rcases owed (headcount_pos_of asleep) with two | releasing | contending
        · simp [free] at two
        · obtain ⟨r, here⟩ := headcount_pos.mp releasing
          cases place : (e.state n).pc r with
          | notify => exact notified r n ⟨⟨free, acquired⟩, place, inside⟩
          | store =>
              have owner := headcount_eq_zero.mp nobody r
              simp [place, Pc.owns] at owner
          | _ => simp [place, Pc.releasing] at here
        · obtain ⟨c, here⟩ := headcount_pos.mp contending
          refine awake n ⟨c, ⟨free, acquired⟩, ?_⟩
          cases place : (e.state n).pc c <;> simp_all [Pc.contending, Pc.distance]
  · obtain ⟨r, here⟩ := headcount_pos.mp (by omega : 0 < headcount Pc.owns (e.state n).pc)
    cases place : (e.state n).pc r with
    | critical => exact absurd ⟨r, place⟩ acquired
    | store => exact released r n ⟨.inr ⟨busy, one⟩, place, acquired, inside⟩
    | _ => simp [place, Pc.owns] at here

/-- Thread true has the mutex while thread false parks and is woken, again and again. -/
theorem somebody_acquires_after_parking :
    ∃ e : Execution step (init : State Bool),
      e.Fair owes ∧ (∀ n, ∃ m, n ≤ m ∧ e.label m = some (true, .notifyOne (some false))) ∧
        e.LeadsTo (fun s => (s.pc false).inLock = true) fun s => ∃ u, s.pc u = .critical := by
  let round : List (Bool × Op Bool) :=
    [(true, .callLock), (true, .cmpxchg), (false, .callLock), (false, .cmpxchg),
      (false, .exchange), (false, .load), (false, .futexWait), (true, .fetchSub), (true, .store),
      (true, .notifyOne (some false)), (false, .load), (false, .exchange), (false, .fetchSub),
      (false, .store), (false, .notifyOne none)]
  have around : run step (init : State Bool) round = some init := by
    have ran : run step (init : State Bool) round = some _ := rfl
    exact ran.trans (congrArg some (congrArg₂ State.mk rfl (funext fun t => by cases t <;> rfl)))
  have fair : (Execution.cycle around (by simp [round])).Fair owes := by
    rintro t n -
    have member : (t, Op.fetchSub) ∈ round := by cases t <;> simp [round]
    obtain ⟨m, later, here⟩ := Execution.cycle_label member n
    exact ⟨m, later, _, here, rfl, by simp, by simp⟩
  exact ⟨_, fair, Execution.cycle_label (by simp [round]), somebody_acquires _ fair false⟩

end Progress
end ConcurrencyCourse.Mutex
