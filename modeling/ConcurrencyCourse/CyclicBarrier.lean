import ConcurrencyCourse.Interleaving
import ConcurrencyCourse.Headcount

/-!
`CyclicBarrier` of tasks/condvar/barrier/cyclic_barrier.hpp. Both phases of Arrive
are one critical section: tick `counter_`, and on its last value set the flag and
notify all, otherwise wait until the flag is set. Every statement is a step of its
own, so the mutex, `notify_all`, the test of the predicate and the sleep of
`wait(lock, predicate)` interleave with calls, returns and spurious wake-ups.
-/

namespace ConcurrencyCourse.CyclicBarrier

open Interleaving Headcount

inductive Phase where
  | derived
  | departed
  deriving DecidableEq

inductive Point where
  | lock
  | count
  | setFlag
  | notify
  | test
  | wait
  | parked
  | relock
  | unlock
  deriving DecidableEq

inductive Pc where
  | outside
  | inside (phase : Phase) (point : Point)
  deriving DecidableEq

/-- A thread inside performs the operation of its point; at `parked` that is a
spurious wake-up. -/
inductive Op where
  | call
  | within (phase : Phase) (point : Point)
  deriving DecidableEq

structure State (Thread : Type) where
  counter : UInt64
  isOpenFlag : Bool
  mutex : Option Thread
  pc : Thread → Pc

variable {Thread : Type}

def init : State Thread :=
  { counter := 0, isOpenFlag := false, mutex := none, pc := fun _ => .outside }

abbrev Label (Thread : Type) := Thread × Op

def Pc.parkedIn (phase : Phase) (pc : Pc) : Bool := pc = .inside phase .parked

section Step
variable [DecidableEq Thread]

def phase (which : Phase) (tick : UInt64 → UInt64) (last : UInt64) (opens : Bool) (next : Pc)
    (s : State Thread) (t : Thread) : Point → Option (State Thread)
  | .lock => guarded (s.pc t = .inside which .lock ∧ s.mutex = none)
      { s with mutex := some t, pc := Function.update s.pc t (.inside which .count) }
  | .count => guarded (s.pc t = .inside which .count)
      { s with
        counter := tick s.counter
        pc := Function.update s.pc t
          (.inside which (if tick s.counter = last then .setFlag else .test)) }
  | .setFlag => guarded (s.pc t = .inside which .setFlag)
      { s with isOpenFlag := opens, pc := Function.update s.pc t (.inside which .notify) }
  | .notify => guarded (s.pc t = .inside which .notify)
      { s with
        pc := Function.update (wakeAll (Pc.parkedIn which) (.inside which .relock) s.pc) t
          (.inside which .unlock) }
  | .test => guarded (s.pc t = .inside which .test)
      { s with
        pc := Function.update s.pc t
          (.inside which (if s.isOpenFlag = opens then .unlock else .wait)) }
  -- wait(lock, predicate) unlocks and sleeps in one step, and tests again when woken.
  | .wait => guarded (s.pc t = .inside which .wait)
      { s with mutex := none, pc := Function.update s.pc t (.inside which .parked) }
  | .parked => guarded (s.pc t = .inside which .parked)
      { s with pc := Function.update s.pc t (.inside which .relock) }
  | .relock => guarded (s.pc t = .inside which .relock ∧ s.mutex = none)
      { s with mutex := some t, pc := Function.update s.pc t (.inside which .test) }
  | .unlock => guarded (s.pc t = .inside which .unlock)
      { s with mutex := none, pc := Function.update s.pc t next }

def derivedPhase (participants : UInt64) : State Thread → Thread → Point → Option (State Thread) :=
  phase .derived (· + 1) participants true (.inside .departed .lock)

def departedPhase : State Thread → Thread → Point → Option (State Thread) :=
  phase .departed (· - 1) 0 false .outside

def step (participants : UInt64) (s : State Thread) : Label Thread → Option (State Thread)
  | (t, .call) => guarded (s.pc t = .outside)
      { s with pc := Function.update s.pc t (.inside .derived .lock) }
  | (t, .within .derived point) => derivedPhase participants s t point
  | (t, .within .departed point) => departedPhase s t point

end Step

/-! What the two phases differ in. -/

def Phase.tick : Phase → UInt64 → UInt64
  | .derived => (· + 1)
  | .departed => (· - 1)

def Phase.last (participants : UInt64) : Phase → UInt64
  | .derived => participants
  | .departed => 0

def Phase.opens : Phase → Bool
  | .derived => true
  | .departed => false

def Phase.next : Phase → Pc
  | .derived => .inside .departed .lock
  | .departed => .outside

theorem opens_injective {first second : Phase} (same : first.opens = second.opens) :
    first = second := by
  cases first <;> cases second <;> first | rfl | cases same

theorem within_step [DecidableEq Thread] {participants : UInt64} {which : Phase} {point : Point}
    {s : State Thread} {t : Thread} : step participants s (t, .within which point) =
      phase which which.tick (which.last participants) which.opens which.next s t point := by
  cases which <;> rfl

/-! Classes of program points. -/

def Pc.holds : Pc → Bool
  | .inside _ .count | .inside _ .setFlag | .inside _ .notify => true
  | .inside _ .test | .inside _ .wait | .inside _ .unlock => true
  | _ => false

/-- `counter_` includes the thread. -/
def Pc.counted : Pc → Bool
  | .outside => false
  | .inside .derived .lock | .inside .derived .count => false
  | .inside .derived _ => true
  | .inside .departed .lock | .inside .departed .count => true
  | .inside .departed _ => false

/-- Where a thread of a phase can be before the flag is set for the phase, and after. -/
def Point.fits : Point → Bool → Bool
  | .lock, isSet | .count, isSet | .setFlag, isSet | .wait, isSet => !isSet
  | .notify, isSet | .unlock, isSet => isSet
  | .test, _ | .parked, _ | .relock, _ => true

def Pc.fits (flag : Bool) : Pc → Bool
  | .outside => !flag
  | .inside which point => point.fits (flag == which.opens)

structure Inv [Fintype Thread] (participants : UInt64) (s : State Thread) : Prop where
  holder : ∀ t, (s.pc t).holds = true ↔ s.mutex = some t
  fits : ∀ t, (s.pc t).fits s.isOpenFlag = true
  counts : s.counter.toNat = headcount Pc.counted s.pc
  announced : ∀ which t, s.pc t = .inside which .parked → s.isOpenFlag = which.opens →
    ∃ u, s.pc u = .inside which .notify
  last_here : ∀ which t, s.pc t = .inside which .setFlag → s.counter = which.last participants
  last_found : ∀ which, s.counter = which.last participants → s.isOpenFlag ≠ which.opens →
    ∃ t, s.pc t = .inside which .setFlag

/-! What one step can do. -/
section Moves
variable [DecidableEq Thread] {participants : UInt64} {s after : State Thread} {t u : Thread}
  {op : Op} {which : Phase} {point : Point}

theorem other_step (other : u ≠ t) (taken : step participants s (t, op) = some after) :
    after.pc u = s.pc u ∨
      ∃ which, s.pc u = .inside which .parked ∧ after.pc u = .inside which .relock := by
  cases op with
  | call =>
      rcases guarded_eq_some.mp taken with ⟨_, rfl⟩
      exact Or.inl (by simp [other])
  | within which point =>
      rw [within_step] at taken
      cases point with
      | notify =>
          rcases guarded_eq_some.mp taken with ⟨_, rfl⟩
          simp only [Function.update_of_ne other]
          rcases wakeAll_cases (Pc.parkedIn which) (.inside which .relock) s.pc u with
            same | ⟨asleep, awake⟩
          · exact Or.inl same
          · exact Or.inr ⟨which, of_decide_eq_true asleep, awake⟩
      | _ =>
          rcases guarded_eq_some.mp taken with ⟨_, rfl⟩
          exact Or.inl (by simp [other])

theorem stands_there (taken : step participants s (t, .within which point) = some after) :
    s.pc t = .inside which point := by
  rw [within_step] at taken
  cases point with
  | lock | relock =>
      rcases guarded_eq_some.mp taken with ⟨⟨here, _⟩, _⟩
      exact here
  | _ =>
      rcases guarded_eq_some.mp taken with ⟨here, _⟩
      exact here

theorem mutex_step (taken : step participants s (t, op) = some after) :
    after.mutex = s.mutex ∧ (after.pc t).holds = (s.pc t).holds ∨
    s.mutex = none ∧ after.mutex = some t ∧ (after.pc t).holds = true ∨
    (s.pc t).holds = true ∧ after.mutex = none ∧ (after.pc t).holds = false := by
  cases op with
  | call =>
      rcases guarded_eq_some.mp taken with ⟨here, rfl⟩
      exact Or.inl (by simp [here, Pc.holds])
  | within which point =>
      rw [within_step] at taken
      cases point with
      | lock | relock =>
          rcases guarded_eq_some.mp taken with ⟨⟨_, free⟩, rfl⟩
          exact Or.inr (Or.inl (by simp [free, Pc.holds]))
      | wait =>
          rcases guarded_eq_some.mp taken with ⟨here, rfl⟩
          exact Or.inr (Or.inr (by simp [here, Pc.holds]))
      | unlock =>
          rcases guarded_eq_some.mp taken with ⟨here, rfl⟩
          cases which <;> exact Or.inr (Or.inr (by simp [here, Pc.holds, Phase.next]))
      | count =>
          rcases guarded_eq_some.mp taken with ⟨here, rfl⟩
          by_cases last : which.tick s.counter = which.last participants <;>
            exact Or.inl (by simp [here, Pc.holds, last])
      | test =>
          rcases guarded_eq_some.mp taken with ⟨here, rfl⟩
          by_cases same : s.isOpenFlag = which.opens <;>
            exact Or.inl (by simp [here, Pc.holds, same])
      | _ =>
          rcases guarded_eq_some.mp taken with ⟨here, rfl⟩
          exact Or.inl (by simp [here, Pc.holds])

theorem other_class (stands : Pc → Bool) (alike : ∀ which, stands (.inside which .parked) =
      stands (.inside which .relock))
    (other : u ≠ t) (taken : step participants s (t, op) = some after) :
    stands (after.pc u) = stands (s.pc u) := by
  rcases other_step other taken with same | ⟨which, asleep, woken⟩
  · rw [same]
  · rw [asleep, woken, alike]

theorem flag_step (taken : step participants s (t, op) = some after) :
    after.isOpenFlag = s.isOpenFlag ∨
      ∃ which, op = .within which .setFlag ∧ after.isOpenFlag = which.opens := by
  cases op with
  | call =>
      rcases guarded_eq_some.mp taken with ⟨_, rfl⟩
      exact Or.inl rfl
  | within which point =>
      rw [within_step] at taken
      cases point with
      | setFlag =>
          rcases guarded_eq_some.mp taken with ⟨_, rfl⟩
          exact Or.inr ⟨which, rfl, rfl⟩
      | _ =>
          rcases guarded_eq_some.mp taken with ⟨_, rfl⟩
          exact Or.inl rfl

theorem counter_step (taken : step participants s (t, op) = some after) :
    (after.counter = s.counter ∧ (after.pc t).counted = (s.pc t).counted ∧
      ∀ which, after.pc t ≠ .inside which .setFlag) ∨
    ∃ which, op = .within which .count ∧ after.counter = which.tick s.counter ∧
      (after.pc t).counted = which.opens ∧ after.pc t =
        .inside which (if after.counter = which.last participants then .setFlag else .test) := by
  cases op with
  | call =>
      rcases guarded_eq_some.mp taken with ⟨here, rfl⟩
      exact Or.inl (by simp [here, Pc.counted])
  | within which point =>
      rw [within_step] at taken
      cases point with
      | count =>
          rcases guarded_eq_some.mp taken with ⟨_, rfl⟩
          refine Or.inr ⟨which, rfl, rfl, ?_, by simp⟩
          by_cases last : which.tick s.counter = which.last participants <;>
            cases which <;> simp [last, Pc.counted, Phase.opens]
      | test =>
          rcases guarded_eq_some.mp taken with ⟨here, rfl⟩
          by_cases same : s.isOpenFlag = which.opens <;> cases which <;>
            exact Or.inl (by simp [here, same, Pc.counted])
      | _ =>
          rcases guarded_eq_some.mp taken with ⟨here, rfl⟩
          cases which <;> exact Or.inl (by simp [here, Pc.counted, Phase.next])

theorem stays (taken : step participants s (t, op) = some after)
    (there : s.pc u = .inside which point) (awake : point ≠ .parked)
    (idle : op ≠ .within which point) : after.pc u = .inside which point := by
  have other : u ≠ t := by
    rintro rfl
    cases op with
    | call =>
        rcases guarded_eq_some.mp taken with ⟨here, _⟩
        simp [here] at there
    | within phase own =>
        rw [stands_there taken] at there
        cases there
        exact idle rfl
  rcases other_step other taken with same | ⟨_, asleep, _⟩
  · rw [same, there]
  · rw [there] at asleep
    cases asleep
    exact absurd rfl awake

theorem falls_asleep (taken : step participants s (t, op) = some after)
    (asleep : after.pc u = .inside which .parked) :
    s.pc u = .inside which .parked ∨ u = t ∧ op = .within which .wait := by
  by_cases self : u = t
  · subst self
    cases op with
    | call =>
        rcases guarded_eq_some.mp taken with ⟨_, rfl⟩
        simp at asleep
    | within phase point =>
        rw [within_step] at taken
        cases point with
        | wait =>
            rcases guarded_eq_some.mp taken with ⟨_, rfl⟩
            simp only [Function.update_self, Pc.inside.injEq, and_true] at asleep
            exact Or.inr ⟨rfl, by rw [asleep]⟩
        | count =>
            rcases guarded_eq_some.mp taken with ⟨_, rfl⟩
            by_cases last : phase.tick s.counter = phase.last participants <;>
              simp [last] at asleep
        | test =>
            rcases guarded_eq_some.mp taken with ⟨_, rfl⟩
            by_cases same : s.isOpenFlag = phase.opens <;> simp [same] at asleep
        | unlock =>
            rcases guarded_eq_some.mp taken with ⟨_, rfl⟩
            cases phase <;> simp [Phase.next] at asleep
        | _ =>
            rcases guarded_eq_some.mp taken with ⟨_, rfl⟩
            simp at asleep
  · rcases other_step self taken with same | ⟨_, _, woken⟩
    · exact Or.inl (same ▸ asleep)
    · simp [woken] at asleep

/-- The thread can take a step that is not a spurious wake-up. -/
def Runnable (participants : UInt64) (s : State Thread) (t : Thread) : Prop :=
  ∃ op, (∀ which, op ≠ .within which .parked) ∧ (step participants s (t, op)).isSome = true

theorem stuck_inside {point : Point} {which : Phase} (here : s.pc t = .inside which point)
    (stuck : ¬ Runnable participants s t) :
    point = .parked ∨ (point = .lock ∨ point = .relock) ∧ s.mutex ≠ none := by
  by_contra moving
  apply stuck
  refine ⟨.within which point, ?_, ?_⟩
  · rintro phase same
    cases same
    exact moving (Or.inl rfl)
  · rw [within_step]
    cases point with
    | parked => exact absurd (Or.inl rfl) moving
    | lock | relock =>
        have free : s.mutex = none := by
          by_contra taken
          exact moving (Or.inr ⟨by simp, taken⟩)
        exact guarded_isSome.mpr ⟨here, free⟩
    | _ => exact guarded_isSome.mpr here

end Moves

/-! What the invariant says of a state. -/
section Invariant
variable [Fintype Thread] {participants : UInt64} {s after : State Thread} {t u : Thread}
  {op : Op} {which : Phase}

theorem last_injective (positive : 0 < participants.toNat) {first second : Phase}
    (same : first.last participants = second.last participants) : first = second := by
  have nonzero : participants ≠ 0 := by
    rintro rfl
    simp at positive
  cases first <;> cases second
  · rfl
  · exact absurd same nonzero
  · exact absurd same.symm nonzero
  · rfl

theorem init_inv (positive : 0 < participants.toNat) : Inv participants (init : State Thread) where
  holder := by simp [init, Pc.holds]
  fits := by simp [init, Pc.fits]
  counts := by simp [init, headcount, Pc.counted]
  announced := by simp [init]
  last_here := by simp [init]
  last_found := by
    intro which last closed
    cases which with
    | derived =>
        rw [← show (0 : UInt64) = participants from last] at positive
        simp at positive
    | departed => simp [init, Phase.opens] at closed

theorem Inv.excluded (inv : Inv participants s) (holding : (s.pc t).holds = true)
    (other : u ≠ t) : (s.pc u).holds = false := by
  cases there : (s.pc u).holds with
  | false => rfl
  | true =>
      have first := (inv.holder t).mp holding
      have second := (inv.holder u).mp there
      rw [first] at second
      exact absurd (Option.some.inj second).symm other

theorem Inv.tick_toNat (inv : Inv participants s)
    (members : Fintype.card Thread = participants.toNat)
    (here : s.pc t = .inside which .count) :
    (which.tick s.counter).toNat + (!which.opens).toNat =
      s.counter.toNat + which.opens.toNat := by
  have counts := inv.counts
  cases which with
  | derived =>
      have room : headcount Pc.counted s.pc < participants.toNat := by
        rw [← members]
        apply lt_of_le_of_ne (headcount_le_card _ _)
        intro full
        have mine := headcount_eq_card.mp full t
        simp [here, Pc.counted] at mine
      have bound := participants.toNat_lt
      simp only [Phase.tick, Phase.opens, UInt64.toNat_add, UInt64.toNat_one, Bool.not_true,
        Bool.toNat_false, Bool.toNat_true]
      omega
  | departed =>
      have present : 0 < headcount Pc.counted s.pc :=
        headcount_pos_of (t := t) (by simp [here, Pc.counted])
      have bound := s.counter.toNat_lt
      simp only [Phase.tick, Phase.opens, UInt64.toNat_sub, UInt64.toNat_one, Bool.not_false,
        Bool.toNat_false, Bool.toNat_true]
      omega

/-- The thread that sets the flag of a phase is there with every other thread
behind it, asleep or about to lock again. -/
theorem Inv.gathered (inv : Inv participants s) (members : Fintype.card Thread = participants.toNat)
    (here : s.pc t = .inside which .setFlag) (other : u ≠ t) :
    s.pc u = .inside which .parked ∨ s.pc u = .inside which .relock := by
  have alone := inv.excluded (u := u) (by rw [here]; rfl) other
  have mine := inv.fits t
  have fits := inv.fits u
  have last := inv.last_here which t here
  have counts := inv.counts
  rw [last] at counts
  cases which with
  | derived =>
      -- All are counted, so nobody is left in an earlier departure or outside.
      have all := headcount_eq_card.mp (counts.symm.trans members.symm) u
      cases flag : s.isOpenFlag <;> simp [here, flag, Pc.fits, Point.fits, Phase.opens] at mine
      rcases there : s.pc u with _ | ⟨phase, point⟩
      · simp [there, Pc.counted] at all
      · cases phase <;> cases point <;>
          simp_all [Pc.holds, Pc.counted, Pc.fits, Point.fits, Phase.opens]
  | departed =>
      -- Nobody is counted, so nobody is left in the derivation.
      have none' := headcount_eq_zero.mp counts.symm u
      cases flag : s.isOpenFlag <;> simp [here, flag, Pc.fits, Point.fits, Phase.opens] at mine
      rcases there : s.pc u with _ | ⟨phase, point⟩
      · simp [there, flag, Pc.fits] at fits
      · cases phase <;> cases point <;>
          simp_all [Pc.holds, Pc.counted, Pc.fits, Point.fits, Phase.opens]

theorem Inv.asleep_closed {which : Phase} (inv : Inv participants s) (free : s.mutex = none)
    (asleep : s.pc t = .inside which .parked) : s.isOpenFlag ≠ which.opens := by
  intro isSet
  rcases inv.announced which t asleep isSet with ⟨u, notifier⟩
  have owner := (inv.holder u).mp (by rw [notifier]; rfl)
  simp [free] at owner

theorem Inv.asleep_free (inv : Inv participants s)
    (asleep : ∀ u, s.pc u = .outside ∨ ∃ which, s.pc u = .inside which .parked) :
    s.mutex = none := by
  by_contra held
  rcases Option.ne_none_iff_exists'.mp held with ⟨v, owner⟩
  have holding := (inv.holder v).mpr owner
  rcases asleep v with outside | ⟨_, parked⟩
  · simp [outside, Pc.holds] at holding
  · simp [parked, Pc.holds] at holding

theorem Inv.asleep_early {which : Phase} (inv : Inv participants s)
    (asleep : ∀ u, s.pc u = .outside ∨ ∃ which, s.pc u = .inside which .parked)
    (closed : s.isOpenFlag ≠ which.opens) : s.counter ≠ which.last participants := by
  intro last
  rcases inv.last_found which last closed with ⟨v, there⟩
  rcases asleep v with outside | ⟨_, parked⟩
  · simp [there] at outside
  · simp [there] at parked

theorem Inv.asleep_derived (inv : Inv participants s)
    (asleep : ∀ u, s.pc u = .outside ∨ ∃ which, s.pc u = .inside which .parked) :
    s.isOpenFlag = false := by
  cases flag : s.isOpenFlag with
  | false => rfl
  | true =>
      have closed : s.isOpenFlag ≠ Phase.departed.opens := by simp [flag, Phase.opens]
      exfalso
      apply inv.asleep_early asleep closed
      apply UInt64.toNat_inj.mp
      rw [inv.counts]
      apply headcount_eq_zero.mpr
      intro v
      rcases asleep v with outside | ⟨which, parked⟩
      · simp [outside, Pc.counted]
      · have closed := inv.asleep_closed (inv.asleep_free asleep) parked
        cases which with
        | derived => simp [flag, Phase.opens] at closed
        | departed => simp [parked, Pc.counted]

theorem Inv.someone_missing (inv : Inv participants s)
    (members : Fintype.card Thread = participants.toNat)
    (asleep : ∀ u, s.pc u = .outside ∨ ∃ which, s.pc u = .inside which .parked)
    (flag : s.isOpenFlag = false) : ∃ u, s.pc u = .outside := by
  by_contra nobody
  have unset : s.isOpenFlag ≠ Phase.derived.opens := by simp [flag, Phase.opens]
  apply inv.asleep_early asleep unset
  apply UInt64.toNat_inj.mp
  rw [inv.counts, Phase.last, ← members]
  apply headcount_eq_card.mpr
  intro u
  rcases asleep u with outside | ⟨which, parked⟩
  · exact absurd ⟨u, outside⟩ nobody
  · have closed := inv.asleep_closed (inv.asleep_free asleep) parked
    cases which with
    | derived => simp [parked, Pc.counted]
    | departed => simp [flag, Phase.opens] at closed

/-! Every step keeps it. -/
variable [DecidableEq Thread]

theorem Inv.holder_kept (inv : Inv participants s)
    (taken : step participants s (t, op) = some after) (u : Thread) :
    (after.pc u).holds = true ↔ after.mutex = some u := by
  have before := inv.holder
  by_cases self : u = t
  · subst self
    rcases mutex_step taken with ⟨same, still⟩ | ⟨_, mine, holds⟩ | ⟨_, free, away⟩
    · rw [same, still]
      exact before u
    · simp [mine, holds]
    · simp [free, away]
  · rw [other_class Pc.holds (fun _ => rfl) self taken, before u]
    rcases mutex_step taken with ⟨same, _⟩ | ⟨free, mine, _⟩ | ⟨held, free, _⟩
    · rw [same]
    · simp [free, mine, Ne.symm self]
    · rw [(before t).mp held, free]
      simp [Ne.symm self]

theorem Inv.fits_self (inv : Inv participants s)
    (taken : step participants s (t, op) = some after) :
    (after.pc t).fits after.isOpenFlag = true := by
  have fits := inv.fits t
  cases op with
  | call =>
      rcases guarded_eq_some.mp taken with ⟨here, rfl⟩
      simpa [here, Pc.fits, Point.fits, Phase.opens] using fits
  | within which point =>
      rw [stands_there taken] at fits
      rw [within_step] at taken
      cases point with
      | count =>
          rcases guarded_eq_some.mp taken with ⟨_, rfl⟩
          by_cases last : which.tick s.counter = which.last participants
          · simpa [last, Pc.fits, Point.fits] using fits
          · simp [last, Pc.fits, Point.fits]
      | test =>
          rcases guarded_eq_some.mp taken with ⟨_, rfl⟩
          by_cases same : s.isOpenFlag = which.opens <;> simp [same, Pc.fits, Point.fits]
      | unlock =>
          rcases guarded_eq_some.mp taken with ⟨_, rfl⟩
          cases which <;> simpa [Phase.next, Phase.opens, Pc.fits, Point.fits] using fits
      | setFlag | wait | parked | relock =>
          rcases guarded_eq_some.mp taken with ⟨_, rfl⟩
          simp [Pc.fits, Point.fits]
      | _ =>
          rcases guarded_eq_some.mp taken with ⟨_, rfl⟩
          simpa [Pc.fits, Point.fits] using fits

theorem Inv.fits_kept (inv : Inv participants s)
    (members : Fintype.card Thread = participants.toNat)
    (taken : step participants s (t, op) = some after) (u : Thread) :
    (after.pc u).fits after.isOpenFlag = true := by
  by_cases self : u = t
  · subst self
    exact inv.fits_self taken
  · rcases flag_step taken with same | ⟨which, rfl, _⟩
    · rw [other_class (Pc.fits after.isOpenFlag) (fun _ => rfl) self taken, same]
      exact inv.fits u
    · rcases inv.gathered members (stands_there taken) self with asleep | awake
      · rcases other_step self taken with still | ⟨_, _, woken⟩
        · simp [still, asleep, Pc.fits, Point.fits]
        · simp [woken, Pc.fits, Point.fits]
      · rcases other_step self taken with still | ⟨_, asleep, _⟩
        · simp [still, awake, Pc.fits, Point.fits]
        · simp [asleep] at awake

theorem headcount_others (stands : Pc → Bool) (alike : ∀ which, stands (.inside which .parked) =
      stands (.inside which .relock))
    (taken : step participants s (t, op) = some after) :
    headcount stands after.pc + (stands (s.pc t)).toNat =
      headcount stands s.pc + (stands (after.pc t)).toNat :=
  headcount_moved fun _ other => other_class stands alike other taken

theorem Inv.counts_kept (inv : Inv participants s)
    (members : Fintype.card Thread = participants.toNat)
    (taken : step participants s (t, op) = some after) :
    after.counter.toNat = headcount Pc.counted after.pc := by
  have counts := inv.counts
  have moved := headcount_others Pc.counted (fun which => by cases which <;> rfl) taken
  rcases counter_step taken with ⟨same, still, _⟩ | ⟨which, rfl, ticked, counted, _⟩
  · rw [still] at moved
    rw [same]
    omega
  · have tick := inv.tick_toNat members (stands_there taken)
    have before : (s.pc t).counted = !which.opens := by
      rw [stands_there taken]
      cases which <;> rfl
    rw [before, counted] at moved
    rw [ticked]
    omega

theorem Inv.announced_kept (inv : Inv participants s)
    (taken : step participants s (t, op) = some after)
    (asleep : after.pc u = .inside which .parked) (isSet : after.isOpenFlag = which.opens) :
    ∃ v, after.pc v = .inside which .notify := by
  rcases flag_step taken with same | ⟨phase, rfl, opened⟩
  · rcases falls_asleep taken asleep with before | ⟨rfl, rfl⟩
    · rcases inv.announced which u before (same ▸ isSet) with ⟨v, notifier⟩
      refine ⟨v, stays taken notifier (by simp) ?_⟩
      -- The notify of this phase would have woken `u`.
      rintro rfl
      have mine := stands_there taken
      rw [within_step] at taken
      rcases guarded_eq_some.mp taken with ⟨_, rfl⟩
      by_cases self : u = t
      · subst self
        simp at asleep
      · simp [self, wakeAll, Pc.parkedIn, before] at asleep
    · have fits := inv.fits u
      rw [stands_there taken] at fits
      simp [Pc.fits, Point.fits, ← same, isSet] at fits
  · have phases := opens_injective (opened.symm.trans isSet)
    subst phases
    refine ⟨t, ?_⟩
    rw [within_step] at taken
    rcases guarded_eq_some.mp taken with ⟨_, rfl⟩
    simp

theorem Inv.last_here_kept (inv : Inv participants s)
    (taken : step participants s (t, op) = some after)
    (here : after.pc u = .inside which .setFlag) : after.counter = which.last participants := by
  rcases counter_step taken with ⟨same, _, away⟩ | ⟨phase, rfl, _, _, moved⟩
  · rw [same]
    by_cases self : u = t
    · subst self
      exact absurd here (away which)
    · rcases other_step self taken with still | ⟨_, _, woken⟩
      · exact inv.last_here which u (still ▸ here)
      · simp [woken] at here
  · by_cases self : u = t
    · subst self
      rw [moved] at here
      by_cases last : after.counter = phase.last participants
      · simp only [last, if_true, Pc.inside.injEq, and_true] at here
        rw [last, here]
      · simp [last] at here
    · have away := inv.excluded (u := u) (by rw [stands_there taken]; rfl) self
      rcases other_step self taken with still | ⟨_, _, woken⟩
      · rw [← still, here] at away
        cases away
      · simp [woken] at here

theorem Inv.last_found_kept (inv : Inv participants s) (positive : 0 < participants.toNat)
    (taken : step participants s (t, op) = some after)
    (last : after.counter = which.last participants) (closed : after.isOpenFlag ≠ which.opens) :
    ∃ v, after.pc v = .inside which .setFlag := by
  rcases counter_step taken with ⟨same, _, _⟩ | ⟨phase, rfl, _, _, moved⟩
  · rcases flag_step taken with flag | ⟨phase, rfl, opened⟩
    · rcases inv.last_found which (same ▸ last) (flag ▸ closed) with ⟨v, setter⟩
      refine ⟨v, stays taken setter (by simp) ?_⟩
      rintro rfl
      rw [within_step] at taken
      rcases guarded_eq_some.mp taken with ⟨_, rfl⟩
      exact closed rfl
    · have phases := inv.last_here phase t (stands_there taken)
      rw [← same, last] at phases
      rw [last_injective positive phases] at closed
      exact absurd opened closed
  · have fits := inv.fits t
    rw [stands_there taken] at fits
    have flag : after.isOpenFlag = s.isOpenFlag := by
      rcases flag_step taken with same | ⟨_, other, _⟩
      · exact same
      · cases other
    -- Both phases wait for the flag to flip, and there is one way to flip it.
    have phases : phase = which := by
      apply opens_injective
      rw [flag] at closed
      cases phase <;> cases which <;> cases open' : s.isOpenFlag <;>
        simp_all [Pc.fits, Point.fits, Phase.opens]
    subst phases
    exact ⟨t, by rw [moved, if_pos last]⟩

theorem Inv.kept (inv : Inv participants s) (members : Fintype.card Thread = participants.toNat)
    (positive : 0 < participants.toNat) {label : Label Thread}
    (taken : step participants s label = some after) : Inv participants after where
  holder := inv.holder_kept taken
  fits := inv.fits_kept members taken
  counts := inv.counts_kept members taken
  announced := fun _ _ => inv.announced_kept taken
  last_here := fun _ _ => inv.last_here_kept taken
  last_found := fun _ => inv.last_found_kept positive taken

theorem reaches_inv (members : Fintype.card Thread = participants.toNat)
    (positive : 0 < participants.toNat) {trace : List (Label Thread)}
    (reached : Reaches (step participants) unrestricted init trace s) : Inv participants s :=
  reached.invariant (init_inv positive) fun _ _ _ inv _ taken => inv.kept members positive taken

end Invariant

/-! Rounds, counted on the trace. -/
section Rounds
variable [DecidableEq Thread]

def started (u : Thread) (trace : List (Label Thread)) : ℕ := trace.count (u, .call)

def returned (u : Thread) (trace : List (Label Thread)) : ℕ :=
  trace.count (u, .within .departed .unlock)

def Pc.isInside : Pc → Bool
  | .outside => false
  | .inside _ _ => true

/-- The thread has started the round that the flag has not closed yet. -/
def Pc.ahead (flag : Bool) : Pc → Bool
  | .inside .derived _ => true
  | _ => flag

variable {participants : UInt64} {s after : State Thread} {t u : Thread} {op : Op}
  {trace : List (Label Thread)}

theorem started_next (trace : List (Label Thread)) : started u (trace ++ [(t, op)]) =
    started u trace + if t = u ∧ op = .call then 1 else 0 := by
  simp [started, List.count_singleton]

theorem returned_next (trace : List (Label Thread)) : returned u (trace ++ [(t, op)]) =
    returned u trace + if t = u ∧ op = .within .departed .unlock then 1 else 0 := by
  simp [returned, List.count_singleton]

theorem border_step (taken : step participants s (t, op) = some after) :
    (op = .call ∧ (s.pc t).isInside = false ∧ (after.pc t).isInside = true) ∨
    (op = .within .departed .unlock ∧ (s.pc t).isInside = true ∧
      (after.pc t).isInside = false) ∨
    (op ≠ .call ∧ op ≠ .within .departed .unlock ∧
      (s.pc t).isInside = true ∧ (after.pc t).isInside = true) := by
  cases op with
  | call =>
      rcases guarded_eq_some.mp taken with ⟨here, rfl⟩
      exact Or.inl (by simp [here, Pc.isInside])
  | within which point =>
      apply Or.inr
      rw [within_step] at taken
      cases point with
      | unlock =>
          rcases guarded_eq_some.mp taken with ⟨here, rfl⟩
          cases which <;> simp [here, Pc.isInside, Phase.next]
      | lock | relock =>
          rcases guarded_eq_some.mp taken with ⟨⟨here, _⟩, rfl⟩
          simp [here, Pc.isInside]
      | _ =>
          rcases guarded_eq_some.mp taken with ⟨here, rfl⟩
          simp [here, Pc.isInside]

theorem started_returned (reached : Reaches (step participants) unrestricted init trace s)
    (u : Thread) : started u trace = returned u trace + (s.pc u).isInside.toNat := by
  induction reached with
  | start => rfl
  | next label _ _ taken ih =>
      rcases label with ⟨t, op⟩
      rw [started_next, returned_next]
      by_cases self : t = u
      · subst self
        rcases border_step taken with ⟨rfl, before, now⟩ | ⟨rfl, before, now⟩ |
            ⟨uncalled, kept, before, now⟩
        · simp [ih, before, now]
        · simp [ih, before, now]
        · simp [ih, before, now, uncalled, kept]
      · have same := other_class Pc.isInside (fun _ => rfl) (Ne.symm self) taken
        simp [self, ih, same]

variable [Fintype Thread]

theorem ahead_step (inv : Inv participants s)
    (taken : step participants s (t, op) = some after) :
    (op = .call ∧ (s.pc t).ahead s.isOpenFlag = false ∧
      (after.pc t).ahead after.isOpenFlag = true) ∨
    (∃ which, op = .within which .setFlag) ∨
    (op ≠ .call ∧ (after.pc t).ahead after.isOpenFlag = (s.pc t).ahead s.isOpenFlag) := by
  have fits := inv.fits t
  cases op with
  | call =>
      rcases guarded_eq_some.mp taken with ⟨here, rfl⟩
      exact Or.inl (by simpa [here, Pc.ahead, Pc.fits] using fits)
  | within which point =>
      apply Or.inr
      rw [stands_there taken] at fits
      rw [within_step] at taken
      cases point with
      | setFlag => exact Or.inl ⟨which, rfl⟩
      | unlock =>
          rcases guarded_eq_some.mp taken with ⟨here, rfl⟩
          cases which with
          | derived =>
              simpa [here, Phase.next, Pc.ahead, Pc.fits, Point.fits, Phase.opens] using fits
          | departed => simp [here, Phase.next, Pc.ahead]
      | lock | relock =>
          rcases guarded_eq_some.mp taken with ⟨⟨here, _⟩, rfl⟩
          cases which <;> simp [here, Pc.ahead]
      | _ =>
          rcases guarded_eq_some.mp taken with ⟨here, rfl⟩
          cases which <;> simp [here, Pc.ahead]

theorem setFlag_ahead (inv : Inv participants s)
    (members : Fintype.card Thread = participants.toNat) {which : Phase}
    (taken : step participants s (t, .within which .setFlag) = some after) (u : Thread) :
    (s.pc u).ahead s.isOpenFlag = true ∧ (after.pc u).ahead after.isOpenFlag = which.opens := by
  have here := stands_there taken
  have fits := inv.fits t
  have gathered : ∃ point, s.pc u = .inside which point := by
    by_cases self : u = t
    · exact ⟨_, self ▸ here⟩
    · rcases inv.gathered members here self with asleep | awake
      · exact ⟨_, asleep⟩
      · exact ⟨_, awake⟩
  rcases gathered with ⟨point, there⟩
  rw [within_step] at taken
  rcases guarded_eq_some.mp taken with ⟨_, rfl⟩
  rw [here] at fits
  cases which with
  | derived =>
      by_cases self : u = t
      · subst self
        simp [here, Pc.ahead, Phase.opens]
      · simp [there, self, Pc.ahead, Phase.opens]
  | departed =>
      have open' : s.isOpenFlag = true := by
        simpa [Pc.fits, Point.fits, Phase.opens] using fits
      by_cases self : u = t
      · subst self
        simp [here, open', Pc.ahead, Phase.opens]
      · simp [there, self, open', Pc.ahead, Phase.opens]

theorem rounds (members : Fintype.card Thread = participants.toNat)
    (positive : 0 < participants.toNat)
    (reached : Reaches (step participants) unrestricted init trace s) :
    ∃ round, ∀ u, started u trace = round + ((s.pc u).ahead s.isOpenFlag).toNat := by
  induction reached with
  | start => exact ⟨0, fun _ => rfl⟩
  | @next trace s after label reached _ taken ih =>
      rcases label with ⟨t, op⟩
      rcases ih with ⟨round, count⟩
      have inv := reaches_inv members positive reached
      have others : ∀ u, u ≠ t → after.isOpenFlag = s.isOpenFlag →
          (after.pc u).ahead after.isOpenFlag = (s.pc u).ahead s.isOpenFlag := by
        intro u self same
        rw [other_class (Pc.ahead after.isOpenFlag) (fun phase => by cases phase <;> rfl) self
          taken, same]
      -- Setting the flag back ends the round for everybody at once.
      by_cases flips : ∃ which, op = .within which .setFlag
      · rcases flips with ⟨which, rfl⟩
        refine ⟨round + (!which.opens).toNat, ?_⟩
        intro u
        rcases setFlag_ahead inv members taken u with ⟨before, now⟩
        rw [started_next, count u, before, now]
        cases which <;> simp [Phase.opens]
      · have same : after.isOpenFlag = s.isOpenFlag := by
          rcases flag_step taken with same | ⟨which, setting, _⟩
          · exact same
          · exact absurd ⟨which, setting⟩ flips
        refine ⟨round, ?_⟩
        intro u
        rw [started_next, count u]
        by_cases self : u = t
        · subst self
          rcases ahead_step inv taken with ⟨rfl, before, now⟩ | setting | ⟨other, still⟩
          · simp [before, now]
          · exact absurd setting flips
          · simp [other, still]
        · simp [Ne.symm self, others u self same]

/-- CyclicBarrier separates rounds: a thread that has returned from its k-th Arrive
finds every thread past the start of its own, `counter_` stays within the number of
participants and never underflows, and an empty barrier is a fresh one. -/
theorem rounds_separated (members : Fintype.card Thread = participants.toNat)
    (positive : 0 < participants.toNat)
    (reached : Reaches (step participants) unrestricted init trace s) :
    (∀ t u, returned t trace ≤ started u trace ∧ started t trace ≤ started u trace + 1) ∧
    s.counter.toNat ≤ participants.toNat ∧
    (∀ t, s.pc t = .inside .departed .count → 0 < s.counter.toNat) ∧
    ((∀ t, s.pc t = .outside) → s.counter = 0 ∧ s.isOpenFlag = false) := by
  have inv := reaches_inv members positive reached
  rcases rounds members positive reached with ⟨round, count⟩
  constructor
  · intro t u
    have whole := started_returned reached t
    have mine := count t
    have yours := count u
    have inside : ((s.pc t).ahead s.isOpenFlag).toNat ≤ (s.pc t).isInside.toNat := by
      have fits := inv.fits t
      cases there : s.pc t with
      | outside =>
          rw [there] at fits
          simp only [Pc.fits, Bool.not_eq_true'] at fits
          simp [Pc.ahead, fits]
      | inside which point => exact Bool.toNat_le _
    have few := Bool.toNat_le ((s.pc t).ahead s.isOpenFlag)
    constructor <;> omega
  · constructor
    · rw [inv.counts, ← members]
      exact headcount_le_card _ _
    · constructor
      · intro t here
        rw [inv.counts]
        exact headcount_pos_of (t := t) (by simp [here, Pc.counted])
      · intro empty
        constructor
        · apply UInt64.toNat_inj.mp
          rw [inv.counts]
          exact headcount_eq_zero.mpr fun t => by simp [empty t, Pc.counted]
        · have someone : 0 < Fintype.card Thread := by omega
          rcases Fintype.card_pos_iff.mp someone with ⟨t⟩
          simpa [empty t, Pc.fits] using inv.fits t

/-- Thread 0 sleeps in its second Arrive while thread 1, still in the departure of the
first round, has not looked at the flag again. -/
theorem rounds_separated_overtaking :
    ∃ trace, ∃ s : State (Fin 2), run (step 2) init trace = some s ∧
      s.pc 0 = .inside .derived .parked ∧ s.pc 1 = .inside .departed .relock ∧
      (∀ t u, returned t trace ≤ started u trace ∧ started t trace ≤ started u trace + 1) ∧
      s.counter.toNat ≤ 2 := by
  have ran : run (step 2) (init : State (Fin 2))
      [(1, .call), (1, .within .derived .lock), (1, .within .derived .count),
        (1, .within .derived .test), (1, .within .derived .wait), (0, .call),
        (0, .within .derived .lock), (0, .within .derived .count),
        (0, .within .derived .setFlag), (0, .within .derived .notify),
        (0, .within .derived .unlock), (1, .within .derived .relock),
        (1, .within .derived .test), (1, .within .derived .unlock),
        (1, .within .departed .lock), (1, .within .departed .count),
        (1, .within .departed .test), (1, .within .departed .wait),
        (0, .within .departed .lock), (0, .within .departed .count),
        (0, .within .departed .setFlag), (0, .within .departed .notify),
        (0, .within .departed .unlock), (0, .call), (0, .within .derived .lock),
        (0, .within .derived .count), (0, .within .derived .test),
        (0, .within .derived .wait)] = some _ := rfl
  have separated := rounds_separated (by decide) (by decide) (run_free ran)
  exact ⟨_, _, ran, rfl, rfl, separated.1, separated.2.1⟩

/-! Sleepers and the threads that can still move. -/

theorem Inv.all_asleep (inv : Inv participants s)
    (stuck : ∀ t, (s.pc t).isInside = true → ¬ Runnable participants s t)
    (u : Thread) : s.pc u = .outside ∨ ∃ which, s.pc u = .inside which .parked := by
  cases here : s.pc u with
  | outside => exact Or.inl rfl
  | inside which point =>
      rcases stuck_inside here (stuck u (by rw [here]; rfl)) with rfl | ⟨_, held⟩
      · exact Or.inr ⟨which, rfl⟩
      · rcases Option.ne_none_iff_exists'.mp held with ⟨v, owner⟩
        have holding := (inv.holder v).mpr owner
        cases there : s.pc v with
        | outside => simp [there, Pc.holds] at holding
        | inside phase spot =>
            rw [there] at holding
            rcases stuck_inside there (stuck v (by rw [there]; rfl)) with rfl | ⟨rfl | rfl, _⟩ <;>
              cases holding

/-- CyclicBarrier strands nobody. With the mutex free a thread sleeps on `is_open_`
only while the flag is false and on `is_close_` only while it is true; and where some
thread is inside Arrive and none of those inside can move, some thread outside has
yet to start the round they are in. -/
theorem nobody_stranded (members : Fintype.card Thread = participants.toNat)
    (positive : 0 < participants.toNat)
    (reached : Reaches (step participants) unrestricted init trace s) :
    (s.mutex = none → ∀ t,
      (s.pc t = .inside .derived .parked → s.isOpenFlag = false) ∧
      (s.pc t = .inside .departed .parked → s.isOpenFlag = true)) ∧
    ((∃ t, (s.pc t).isInside = true) →
      (∀ t, (s.pc t).isInside = true → ¬ Runnable participants s t) →
      ∃ u, s.pc u = .outside ∧
        ∀ t, (s.pc t).isInside = true → started u trace < started t trace) := by
  have inv := reaches_inv members positive reached
  constructor
  · intro free t
    constructor
    · intro asleep
      simpa [Phase.opens] using inv.asleep_closed free asleep
    · intro asleep
      simpa [Phase.opens] using inv.asleep_closed free asleep
  · intro _ stuck
    have asleep := inv.all_asleep stuck
    have flag := inv.asleep_derived asleep
    rcases inv.someone_missing members asleep flag with ⟨u, outside⟩
    rcases rounds members positive reached with ⟨round, count⟩
    refine ⟨u, outside, ?_⟩
    intro v within'
    rw [count u, count v, flag, outside]
    rcases asleep v with away | ⟨which, parked⟩
    · simp [away, Pc.isInside] at within'
    · have closed := inv.asleep_closed (inv.asleep_free asleep) parked
      cases which with
      | derived => simp [parked, Pc.ahead]
      | departed => simp [flag, Phase.opens] at closed

/-- One of two participants goes to sleep in the derivation, alone inside Arrive. -/
def firstSleeps : List (Label Bool) :=
  [(false, .call), (false, .within .derived .lock), (false, .within .derived .count),
    (false, .within .derived .test), (false, .within .derived .wait)]

/-- The other one completes the derivation and goes to sleep in the departure before the
first has tested again. -/
def secondSleeps : List (Label Bool) :=
  [(true, .call), (true, .within .derived .lock), (true, .within .derived .count),
    (true, .within .derived .setFlag), (true, .within .derived .notify),
    (true, .within .derived .unlock), (true, .within .departed .lock),
    (true, .within .departed .count), (true, .within .departed .test),
    (true, .within .departed .wait)]

theorem nobody_stranded_in_either_phase :
    ∃ s s' : State Bool, run (step 2) init firstSleeps = some s ∧
      s.pc false = .inside .derived .parked ∧ s.isOpenFlag = false ∧
      (∃ u, s.pc u = .outside ∧
        ∀ t, (s.pc t).isInside = true → started u firstSleeps < started t firstSleeps) ∧
      run (step 2) init (firstSleeps ++ secondSleeps) = some s' ∧
      s'.pc true = .inside .departed .parked ∧ s'.isOpenFlag = true := by
  have ran : run (step 2) (init : State Bool) firstSleeps = some _ := rfl
  have on : run (step 2) (init : State Bool) (firstSleeps ++ secondSleeps) = some _ := rfl
  obtain ⟨early, missing⟩ := nobody_stranded (by decide) (by decide) (run_free ran)
  obtain ⟨late, _⟩ := nobody_stranded (by decide) (by decide) (run_free on)
  refine ⟨_, _, ran, rfl, (early rfl false).1 rfl, missing ⟨false, rfl⟩ ?_, on, rfl,
    (late rfl true).2 rfl⟩
  rintro t inside ⟨op, awake, able⟩
  cases t with
  | false =>
      cases op with
      | call => exact absurd able (by decide)
      | within which point =>
          cases which <;> cases point <;>
            first | exact absurd rfl (awake _) | exact absurd able (by decide)
  | true => exact absurd inside (by decide)

end Rounds
end ConcurrencyCourse.CyclicBarrier
