import ConcurrencyCourse.Interleaving
import ConcurrencyCourse.Headcount

/-!
Monitors: data guarded by one mutex with one condition variable. An operation locks,
waits while the condition of its loop holds, performs its body, notifies and unlocks;
the wait releases the mutex and parks in one step, and ends by a notification or
spuriously. Stated once for every monitor: the sections take effect one after another,
and when a parked thread can rely on somebody else to take what is there.
-/

namespace ConcurrencyCourse.Monitor

open Interleaving Headcount

inductive Notify where
  | one
  | all
  deriving DecidableEq

structure Outcome (Data Result : Type) where
  data : Data
  result : Result
  notify : Option Notify

/-- What an operation does under the mutex: the condition of its waiting loop, and the
body behind the loop with the notification it ends in. -/
structure Operations (Data Call Result : Type) where
  waits : Call → Data → Bool
  body : Call → Data → Outcome Data Result

inductive Pc (Call Result : Type) where
  | outside
  | entering (call : Call)
  | testing (call : Call)
  | parked (call : Call)
  | woken (call : Call) (notified : Bool)
  | acting (call : Call)
  | notifying (result : Result) (notify : Notify)
  | leaving (result : Result)
  deriving DecidableEq

/-- The label of a body records the data it found. -/
inductive Op (Thread Data Call Result : Type) where
  | invoke (call : Call)
  | lock (call : Call)
  | wait (call : Call)
  | pass (call : Call)
  | spurious (call : Call)
  | relock (call : Call) (notified : Bool)
  | act (call : Call) (found : Data)
  | notifyOne (result : Result) (chosen : Option Thread)
  | notifyAll (result : Result)
  | unlock (result : Result)
  deriving DecidableEq

structure State (Thread Data Call Result : Type) where
  data : Data
  mutex : Option Thread
  pc : Thread → Pc Call Result

abbrev Label (Thread Data Call Result : Type) := Thread × Op Thread Data Call Result

variable {Thread Data Call Result : Type}

def init (data : Data) : State Thread Data Call Result :=
  { data := data, mutex := none, pc := fun _ => .outside }

def Pc.isParked : Pc Call Result → Bool
  | .parked _ => true
  | _ => false

def Pc.wake : Pc Call Result → Pc Call Result
  | .parked call => .woken call true
  | pc => pc

def afterBody (outcome : Outcome Data Result) : Pc Call Result :=
  match outcome.notify with
  | some notify => .notifying outcome.result notify
  | none => .leaving outcome.result

theorem parked_of {pc : Pc Call Result} (asleep : pc.isParked = true) :
    ∃ call, pc = .parked call := by
  cases pc with
  | parked call => exact ⟨call, rfl⟩
  | _ => cases asleep

theorem wake_awake {pc : Pc Call Result} (awake : pc.isParked = false) : pc.wake = pc := by
  cases pc with
  | parked call => cases awake
  | _ => rfl

section Step
variable [DecidableEq Thread]

def wakeChosen (pc : Thread → Pc Call Result) : Option Thread → Thread → Pc Call Result
  | none => pc
  | some u => Function.update pc u (pc u).wake

theorem wakeChosen_cases (pc : Thread → Pc Call Result) (chosen : Option Thread) (u : Thread) :
    wakeChosen pc chosen u = pc u ∨ wakeChosen pc chosen u = (pc u).wake := by
  cases chosen with
  | none => exact Or.inl rfl
  | some v =>
      by_cases self : u = v
      · subst self
        exact Or.inr (by simp [wakeChosen])
      · exact Or.inl (by simp [wakeChosen, self])

variable [Fintype Thread] [DecidableEq Data] [DecidableEq Call] [DecidableEq Result]

def step (ops : Operations Data Call Result) (s : State Thread Data Call Result) :
    Label Thread Data Call Result → Option (State Thread Data Call Result)
  | (t, .invoke call) => guarded (s.pc t = .outside)
      { s with pc := Function.update s.pc t (.entering call) }
  | (t, .lock call) => guarded (s.pc t = .entering call ∧ s.mutex = none)
      { s with mutex := some t, pc := Function.update s.pc t (.testing call) }
  -- wait(lock) releases the mutex and parks without a gap between the two.
  | (t, .wait call) => guarded (s.pc t = .testing call ∧ ops.waits call s.data = true)
      { s with mutex := none, pc := Function.update s.pc t (.parked call) }
  | (t, .pass call) => guarded (s.pc t = .testing call ∧ ops.waits call s.data = false)
      { s with pc := Function.update s.pc t (.acting call) }
  | (t, .spurious call) => guarded (s.pc t = .parked call)
      { s with pc := Function.update s.pc t (.woken call false) }
  | (t, .relock call notified) => guarded (s.pc t = .woken call notified ∧ s.mutex = none)
      { s with mutex := some t, pc := Function.update s.pc t (.testing call) }
  | (t, .act call found) => guarded (s.pc t = .acting call ∧ s.data = found)
      { s with
        data := (ops.body call found).data
        pc := Function.update s.pc t (afterBody (ops.body call found)) }
  | (t, .notifyOne result chosen) =>
      guarded (s.pc t = .notifying result .one ∧ Wakes Pc.isParked s.pc chosen)
        { s with pc := Function.update (wakeChosen s.pc chosen) t (.leaving result) }
  | (t, .notifyAll result) => guarded (s.pc t = .notifying result .all)
      { s with pc := Function.update (fun u => (s.pc u).wake) t (.leaving result) }
  | (t, .unlock result) => guarded (s.pc t = .leaving result)
      { s with mutex := none, pc := Function.update s.pc t .outside }

def Op.source : Op Thread Data Call Result → Pc Call Result
  | .invoke _ => .outside
  | .lock call => .entering call
  | .wait call | .pass call => .testing call
  | .spurious call => .parked call
  | .relock call notified => .woken call notified
  | .act call _ => .acting call
  | .notifyOne result _ => .notifying result .one
  | .notifyAll result => .notifying result .all
  | .unlock result => .leaving result

def Op.target (ops : Operations Data Call Result) : Op Thread Data Call Result → Pc Call Result
  | .invoke call => .entering call
  | .lock call | .relock call _ => .testing call
  | .wait call => .parked call
  | .pass call => .acting call
  | .spurious call => .woken call false
  | .act call found => afterBody (ops.body call found)
  | .notifyOne result _ | .notifyAll result => .leaving result
  | .unlock _ => .outside

variable {ops : Operations Data Call Result} {s after : State Thread Data Call Result}
  {t u : Thread} {op : Op Thread Data Call Result}

theorem own_step (taken : step ops s (t, op) = some after) :
    s.pc t = op.source ∧ after.pc t = op.target ops := by
  cases op with
  | invoke | spurious | notifyAll | unlock =>
      rcases guarded_eq_some.mp taken with ⟨here, rfl⟩
      exact ⟨here, by simp [Op.target]⟩
  | _ =>
      rcases guarded_eq_some.mp taken with ⟨⟨here, _⟩, rfl⟩
      exact ⟨here, by simp [Op.target]⟩

theorem other_step (other : u ≠ t) (taken : step ops s (t, op) = some after) :
    after.pc u = s.pc u ∨ ∃ call, s.pc u = .parked call ∧ after.pc u = .woken call true := by
  have waking : (s.pc u).wake = s.pc u ∨
      ∃ call, s.pc u = .parked call ∧ (s.pc u).wake = .woken call true := by
    cases asleep : (s.pc u).isParked with
    | false => exact Or.inl (wake_awake asleep)
    | true =>
        rcases parked_of asleep with ⟨call, here⟩
        exact Or.inr ⟨call, here, by rw [here]; rfl⟩
  cases op with
  | notifyOne result chosen =>
      rcases guarded_eq_some.mp taken with ⟨_, rfl⟩
      simp only [Function.update_of_ne other]
      rcases wakeChosen_cases s.pc chosen u with same | woken
      · exact Or.inl same
      · rw [woken]
        exact waking
  | notifyAll result =>
      rcases guarded_eq_some.mp taken with ⟨_, rfl⟩
      simp only [Function.update_of_ne other]
      exact waking
  | _ =>
      rcases guarded_eq_some.mp taken with ⟨_, rfl⟩
      exact Or.inl (Function.update_of_ne other _ _)

/-- A class of program points that a notification does not cross. -/
def Settled (stands : Pc Call Result → Bool) : Prop :=
  ∀ call, stands (.woken call true) = stands (.parked call)

theorem Settled.other {stands : Pc Call Result → Bool} (settled : Settled stands)
    (taken : step ops s (t, op) = some after) (u : Thread) (other : u ≠ t) :
    stands (after.pc u) = stands (s.pc u) := by
  rcases other_step other taken with same | ⟨call, asleep, awake⟩
  · rw [same]
  · rw [asleep, awake, settled]

theorem Settled.moved {stands : Pc Call Result → Bool} (settled : Settled stands)
    (taken : step ops s (t, op) = some after) :
    headcount stands after.pc + (stands op.source).toNat =
      headcount stands s.pc + (stands (op.target ops)).toNat := by
  have moved := headcount_moved (settled.other taken)
  rwa [(own_step taken).1, (own_step taken).2] at moved

end Step

/-! Mutual exclusion, and the loop condition that a thread past its loop relies on. -/

def Pc.holds : Pc Call Result → Bool
  | .testing _ | .acting _ | .notifying _ _ | .leaving _ => true
  | _ => false

theorem afterBody_holds (outcome : Outcome Data Result) :
    (afterBody outcome : Pc Call Result).holds = true := by
  cases signal : outcome.notify <;> simp [afterBody, signal, Pc.holds]

structure Sound (ops : Operations Data Call Result) (s : State Thread Data Call Result) :
    Prop where
  holder : ∀ u, (s.pc u).holds = true ↔ s.mutex = some u
  ready : ∀ u call, s.pc u = .acting call → ops.waits call s.data = false

theorem Sound.alone {ops : Operations Data Call Result} {s : State Thread Data Call Result}
    {t u : Thread} (sound : Sound ops s) (first : (s.pc t).holds = true)
    (second : (s.pc u).holds = true) : t = u :=
  Option.some.inj (((sound.holder t).mp first).symm.trans ((sound.holder u).mp second))

theorem sound_init (ops : Operations Data Call Result) (data : Data) :
    Sound ops (init data : State Thread Data Call Result) where
  holder u := by simp [init, Pc.holds]
  ready u call here := by simp [init] at here

def Pc.outcome : Pc Call Result → List Result
  | .notifying result _ | .leaving result => [result]
  | _ => []

theorem afterBody_outcome (outcome : Outcome Data Result) :
    (afterBody outcome : Pc Call Result).outcome = [outcome.result] := by
  cases signal : outcome.notify <;> simp [afterBody, signal, Pc.outcome]

def unreturned (s : State Thread Data Call Result) : List Result :=
  match s.mutex with
  | none => []
  | some t => (s.pc t).outcome

theorem unreturned_holder {s : State Thread Data Call Result} {t : Thread}
    (held : s.mutex = some t) : unreturned s = (s.pc t).outcome := by
  simp [unreturned, held]

theorem unreturned_free {s : State Thread Data Call Result} (free : s.mutex = none) :
    unreturned s = [] := by
  simp [unreturned, free]

section Sections
variable [DecidableEq Thread] [Fintype Thread] [DecidableEq Data] [DecidableEq Call]
  [DecidableEq Result] {ops : Operations Data Call Result}
  {s after : State Thread Data Call Result} {t u : Thread} {op : Op Thread Data Call Result}

theorem mutex_step (taken : step ops s (t, op) = some after) :
    after.mutex = s.mutex ∧ (op.target ops).holds = op.source.holds ∨
    s.mutex = none ∧ after.mutex = some t ∧ (op.target ops).holds = true ∨
    op.source.holds = true ∧ after.mutex = none ∧ (op.target ops).holds = false := by
  cases op with
  | lock | relock =>
      rcases guarded_eq_some.mp taken with ⟨⟨_, free⟩, rfl⟩
      exact Or.inr (Or.inl ⟨free, rfl, rfl⟩)
  | wait | unlock =>
      rcases guarded_eq_some.mp taken with ⟨_, rfl⟩
      exact Or.inr (Or.inr ⟨rfl, rfl, rfl⟩)
  | act call found =>
      rcases guarded_eq_some.mp taken with ⟨_, rfl⟩
      exact Or.inl ⟨rfl, afterBody_holds _⟩
  | _ =>
      rcases guarded_eq_some.mp taken with ⟨_, rfl⟩
      exact Or.inl ⟨rfl, rfl⟩

theorem data_step (taken : step ops s (t, op) = some after) :
    after.data = s.data ∨
      ∃ call, op = .act call s.data ∧ after.data = (ops.body call s.data).data := by
  cases op with
  | act call found =>
      rcases guarded_eq_some.mp taken with ⟨⟨_, rfl⟩, rfl⟩
      exact Or.inr ⟨call, rfl, rfl⟩
  | _ =>
      rcases guarded_eq_some.mp taken with ⟨_, rfl⟩
      exact Or.inl rfl

theorem holder_kept (sound : Sound ops s) (taken : step ops s (t, op) = some after) (u : Thread) :
    (after.pc u).holds = true ↔ after.mutex = some u := by
  have settled : Settled (Pc.holds : Pc Call Result → Bool) := fun _ => rfl
  have before := sound.holder u
  rcases own_step taken with ⟨here, there⟩
  by_cases self : u = t
  · subst self
    rw [here] at before
    rw [there]
    rcases mutex_step taken with ⟨same, alike⟩ | ⟨_, mine, holds⟩ | ⟨_, released, out⟩
    · rw [same, alike, before]
    · simp [mine, holds]
    · simp [released, out]
  · rw [settled.other taken u self]
    rcases mutex_step taken with ⟨same, _⟩ | ⟨free, mine, _⟩ | ⟨held, released, _⟩
    · rw [same, before]
    · rw [before, free, mine]
      simp [Ne.symm self]
    · have owner := (sound.holder t).mp (here ▸ held)
      rw [before, owner, released]
      simp [Ne.symm self]

theorem Sound.kept (sound : Sound ops s) (taken : step ops s (t, op) = some after) :
    Sound ops after where
  holder := holder_kept sound taken
  ready u call here := by
    rcases own_step taken with ⟨source, target⟩
    by_cases self : u = t
    · subst self
      rw [target] at here
      cases op with
      | pass own =>
          rcases guarded_eq_some.mp taken with ⟨⟨_, ready⟩, rfl⟩
          cases here
          exact ready
      | act own found =>
          cases signal : (ops.body own found).notify <;> simp [Op.target, afterBody, signal] at here
      | _ => cases here
    · have there : s.pc u = .acting call := by
        rcases other_step self taken with same | ⟨_, _, awake⟩
        · rw [← same, here]
        · rw [here] at awake
          cases awake
      -- Only the holder of the mutex changes the data, and that is `u`.
      rcases data_step taken with same | ⟨own, rfl, _⟩
      · rw [same]
        exact sound.ready u call there
      · exact absurd (sound.alone (by rw [there]; rfl) (by rw [source]; rfl)) self

variable {allowed : State Thread Data Call Result → Label Thread Data Call Result → Prop}
  {data : Data} {trace : List (Label Thread Data Call Result)}

theorem sound (reached : Reaches (step ops) allowed (init data) trace s) : Sound ops s :=
  reached.invariant (sound_init ops data) fun _ _ _ before _ taken => before.kept taken

theorem acts_ready {call : Call} {found : Data}
    (reached : Reaches (step ops) allowed (init data) trace s)
    (taken : step ops s (t, .act call found) = some after) :
    s.data = found ∧ ops.waits call found = false := by
  rcases guarded_eq_some.mp taken with ⟨⟨here, rfl⟩, _⟩
  exact ⟨rfl, (sound reached).ready t call here⟩

/-! The object that the monitor implements: every operation in one step. -/

def atomic (ops : Operations Data Call Result) (data : Data) : Call × Data → Option Data
  | (call, found) =>
      guarded (data = found ∧ ops.waits call found = false) (ops.body call found).data

def sectionOf : Label Thread Data Call Result → Option (Call × Data)
  | (_, .act call found) => some (call, found)
  | _ => none

def sections (trace : List (Label Thread Data Call Result)) : List (Call × Data) :=
  trace.filterMap sectionOf

theorem sections_atomic (reached : Reaches (step ops) allowed (init data) trace s) :
    Reaches (atomic ops) unrestricted data (sections trace) s.data := by
  have simulated : ∃ current, Reaches (atomic ops) unrestricted data (sections trace) current ∧
      Sound ops s ∧ s.data = current := by
    apply reached.simulates sectionOf (fun s current => Sound ops s ∧ s.data = current)
      ⟨sound_init ops data, rfl⟩
    rintro s ⟨t, op⟩ after current ⟨sound, rfl⟩ _ taken
    cases op with
    | act call found =>
        rcases guarded_eq_some.mp taken with ⟨⟨here, rfl⟩, rfl⟩
        exact Or.inr ⟨(call, s.data), _, rfl,
          guarded_eq_some.mpr ⟨⟨rfl, sound.ready t call here⟩, rfl⟩, sound.kept taken, rfl⟩
    | _ =>
        have kept := sound.kept taken
        rcases guarded_eq_some.mp taken with ⟨_, rfl⟩
        exact Or.inl ⟨rfl, kept, rfl⟩
  obtain ⟨current, matched, _, rfl⟩ := simulated
  exact matched

/-! What the calls return, in the order in which they return. -/

def returnOf : Label Thread Data Call Result → Option Result
  | (_, .unlock result) => some result
  | _ => none

def returned (trace : List (Label Thread Data Call Result)) : List Result :=
  trace.filterMap returnOf

def results (ops : Operations Data Call Result) (history : List (Call × Data)) : List Result :=
  history.map fun entry => (ops.body entry.1 entry.2).result

theorem unreturned_step (sound : Sound ops s) (taken : step ops s (t, op) = some after) :
    unreturned s ++ (results ops (sectionOf (t, op)).toList) =
      (returnOf (t, op)).toList ++ unreturned after := by
  rcases own_step taken with ⟨here, there⟩
  have kept := sound.kept taken
  cases op with
  | lock call | relock call =>
      rcases guarded_eq_some.mp taken with ⟨⟨_, free⟩, rfl⟩
      rw [unreturned_free free, unreturned_holder (t := t) rfl, there]
      rfl
  | wait call =>
      have held := (sound.holder t).mp (by rw [here]; rfl)
      rcases guarded_eq_some.mp taken with ⟨_, rfl⟩
      rw [unreturned_holder held, unreturned_free rfl, here]
      rfl
  | unlock result =>
      have held := (sound.holder t).mp (by rw [here]; rfl)
      rcases guarded_eq_some.mp taken with ⟨_, rfl⟩
      rw [unreturned_holder held, unreturned_free rfl, here]
      rfl
  | act call found =>
      have held := (sound.holder t).mp (by rw [here]; rfl)
      have still := (kept.holder t).mp (by rw [there]; exact afterBody_holds _)
      rw [unreturned_holder held, unreturned_holder still, here, there, Op.target,
        afterBody_outcome]
      rfl
  | pass call | notifyOne result | notifyAll result =>
      have held := (sound.holder t).mp (by rw [here]; rfl)
      have still := (kept.holder t).mp (by rw [there]; rfl)
      rw [unreturned_holder held, unreturned_holder still, here, there]
      rfl
  | invoke call | spurious call =>
      have same : after.mutex = s.mutex ∧ ∀ v, v ≠ t → after.pc v = s.pc v := by
        rcases guarded_eq_some.mp taken with ⟨_, rfl⟩
        exact ⟨rfl, fun v other => Function.update_of_ne other _ _⟩
      rcases Option.eq_none_or_eq_some s.mutex with free | ⟨v, owner⟩
      · rw [unreturned_free free, unreturned_free (same.1.trans free)]
        rfl
      · have other : v ≠ t := by
          rintro rfl
          have holds := (sound.holder v).mpr owner
          rw [here] at holds
          cases holds
        rw [unreturned_holder owner, unreturned_holder (same.1.trans owner), same.2 v other]
        simp [sectionOf, returnOf, results]

theorem returned_results (reached : Reaches (step ops) allowed (init data) trace s) :
    results ops (sections trace) = returned trace ++ unreturned s := by
  induction reached with
  | start => rfl
  | next label reached _ taken ih =>
      have moved := unreturned_step (sound reached) taken
      simp only [sections, returned, filterMap_snoc, results, List.map_append] at ih moved ⊢
      rw [ih, List.append_assoc, moved, List.append_assoc]

end Sections

/-! When a thread may stay parked. -/

def Pc.notified : Pc Call Result → Bool
  | .woken _ true => true
  | _ => false

def Pc.announces : Pc Call Result → Bool
  | .notifying _ .all => true
  | _ => false

/-- The thread holds the mutex and is about to take an item, or to notify one thread
of an item. -/
def Pc.claims (takes : Call → Bool) : Pc Call Result → Bool
  | .testing call | .acting call => takes call
  | .notifying _ .one => true
  | _ => false

/-- The thread is, or was last, parked in a call that takes nothing. -/
def Pc.misplaced (takes : Call → Bool) : Pc Call Result → Bool
  | .parked call | .woken call _ => !takes call
  | _ => false

/-- The data hold items that some calls take, one each, and that others provide. Only
taking calls wait, and only when there is no item; a call that adds an item notifies
one thread, and a call that adds more notifies all. -/
structure Supply (ops : Operations Data Call Result) (amount : Data → ℕ) (takes : Call → Bool) :
    Prop where
  waits : ∀ call data, ops.waits call data = true → takes call = true ∧ amount data = 0
  taken : ∀ call data, takes call = true → ops.waits call data = false →
    amount (ops.body call data).data + 1 ≤ amount data ∨ amount (ops.body call data).data = 0
  given : ∀ call data, takes call = false →
    (ops.body call data).notify = none ∧ amount (ops.body call data).data ≤ amount data ∨
    (ops.body call data).notify = some .one ∧
      amount (ops.body call data).data ≤ amount data + 1 ∨
    (ops.body call data).notify = some .all

/-- A condition of the data on which no call waits; the call that brings it about
notifies all. -/
structure Release (ops : Operations Data Call Result) (released : Data → Bool) : Prop where
  waits : ∀ call data, ops.waits call data = true → released data = false
  announced : ∀ call data, released data = false → released (ops.body call data).data = true →
    (ops.body call data).notify = some .all

theorem settled_announces : Settled (Pc.announces : Pc Call Result → Bool) := fun _ => rfl

theorem settled_claims (takes : Call → Bool) :
    Settled (Pc.claims takes : Pc Call Result → Bool) := fun _ => rfl

theorem act_supplied {ops : Operations Data Call Result} {amount : Data → ℕ}
    {takes : Call → Bool} (supply : Supply ops amount takes) {call : Call} {found : Data}
    (ready : ops.waits call found = false) :
    (afterBody (ops.body call found) : Pc Call Result).announces = true ∨
    amount (ops.body call found).data + (takes call).toNat ≤
      amount found + ((afterBody (ops.body call found) : Pc Call Result).claims takes).toNat ∨
    amount (ops.body call found).data = 0 := by
  cases taking : takes call with
  | true =>
      rcases supply.taken call found taking ready with fewer | none'
      · simp only [Bool.toNat_true]
        omega
      · exact Or.inr (Or.inr none')
  | false =>
      rcases supply.given call found taking with ⟨silent, same⟩ | ⟨one, more⟩ | all
      · simp only [afterBody, silent, Pc.claims, Bool.toNat_false]
        omega
      · simp only [afterBody, one, Pc.claims, Bool.toNat_false, Bool.toNat_true]
        omega
      · exact Or.inl (by simp [afterBody, all, Pc.announces])

theorem nobody_holds [Fintype Thread] {ops : Operations Data Call Result}
    {s : State Thread Data Call Result} (sound : Sound ops s) (free : s.mutex = none)
    {stands : Pc Call Result → Bool} (within : ∀ pc, stands pc = true → pc.holds = true) :
    headcount stands s.pc = 0 := by
  apply headcount_eq_zero.mpr
  intro u
  cases here : stands (s.pc u) with
  | false => rfl
  | true =>
      have holds := (sound.holder u).mp (within _ here)
      simp [free] at holds

theorem announces_holds (pc : Pc Call Result) (announces : pc.announces = true) :
    pc.holds = true := by
  cases pc <;> first | rfl | cases announces

theorem claims_holds {takes : Call → Bool} (pc : Pc Call Result) (claims : pc.claims takes = true) :
    pc.holds = true := by
  cases pc <;> first | rfl | cases claims

section Parked
variable [DecidableEq Thread] [Fintype Thread] [DecidableEq Data] [DecidableEq Call]
  [DecidableEq Result] {ops : Operations Data Call Result}
  {s after : State Thread Data Call Result} {t u : Thread} {op : Op Thread Data Call Result}
  {amount : Data → ℕ} {takes : Call → Bool} {released : Data → Bool}
  {allowed : State Thread Data Call Result → Label Thread Data Call Result → Prop}
  {data : Data} {trace : List (Label Thread Data Call Result)}

theorem quiet_moved (stands : Pc Call Result → Bool) (taken : step ops s (t, op) = some after)
    (quiet : ∀ result notify, op.source ≠ .notifying result notify) :
    headcount stands after.pc + (stands op.source).toNat =
      headcount stands s.pc + (stands (op.target ops)).toNat := by
  rw [← (own_step taken).1, ← (own_step taken).2]
  apply headcount_moved
  intro u other
  cases op with
  | notifyOne result | notifyAll result => exact absurd rfl (quiet result _)
  | _ =>
      rcases guarded_eq_some.mp taken with ⟨_, rfl⟩
      simp only [Function.update_of_ne other]

theorem parks (taken : step ops s (t, op) = some after)
    (asleep : (after.pc u).isParked = true) :
    (s.pc u).isParked = true ∨ u = t ∧ ∃ call, op = .wait call := by
  by_cases self : u = t
  · subst self
    rw [(own_step taken).2] at asleep
    cases op with
    | wait call => exact Or.inr ⟨rfl, call, rfl⟩
    | act call found =>
        cases signal : (ops.body call found).notify <;>
          simp [Op.target, afterBody, signal, Pc.isParked] at asleep
    | _ => cases asleep
  · rcases other_step self taken with same | ⟨call, _, awake⟩
    · exact Or.inl (same ▸ asleep)
    · rw [awake] at asleep
      cases asleep

theorem parked_none (taken : step ops s (t, op) = some after)
    (busy : ∀ call, op ≠ .wait call) (nobody : headcount Pc.isParked s.pc = 0) :
    headcount Pc.isParked after.pc = 0 := by
  apply headcount_eq_zero.mpr
  intro u
  cases asleep : (after.pc u).isParked with
  | false => rfl
  | true =>
      rcases parks taken asleep with before | ⟨_, call, rfl⟩
      · exact (headcount_eq_zero.mp nobody u).symm.trans before |>.symm
      · exact absurd rfl (busy call)

theorem notifyAll_wakes {result : Result}
    (taken : step ops s (t, .notifyAll result) = some after) :
    headcount Pc.isParked after.pc = 0 := by
  rcases guarded_eq_some.mp taken with ⟨_, rfl⟩
  apply headcount_eq_zero.mpr
  intro u
  by_cases self : u = t
  · simp [self, Pc.isParked]
  · simp only [Function.update_of_ne self]
    cases s.pc u <;> rfl

theorem notifyOne_wakes {result : Result} {v : Thread}
    (taken : step ops s (t, .notifyOne result (some v)) = some after) :
    (s.pc v).isParked = true ∧
      headcount Pc.notified after.pc = headcount Pc.notified s.pc + 1 := by
  rcases guarded_eq_some.mp taken with ⟨⟨here, wakes⟩, rfl⟩
  rcases parked_of wakes with ⟨call, asleep⟩
  refine ⟨wakes, ?_⟩
  have woken := headcount_update Pc.notified s.pc v (Pc.wake (s.pc v))
  have left := headcount_update Pc.notified (wakeChosen s.pc (some v)) t (.leaving result)
  have other : t ≠ v := by
    rintro rfl
    simp [here] at asleep
  have still : wakeChosen s.pc (some v) t = .notifying result .one := by
    simp [wakeChosen, other, here]
  rw [still] at left
  simp only [wakeChosen, asleep, Pc.wake, Pc.notified, Bool.toNat_false, Bool.toNat_true]
    at woken left ⊢
  omega

theorem well_placed (supply : Supply ops amount takes)
    (reached : Reaches (step ops) allowed (init data) trace s) :
    ∀ u, (s.pc u).misplaced takes = false := by
  induction reached with
  | start => exact fun _ => rfl
  | next label _ _ taken ih =>
      intro u
      rcases label with ⟨t, op⟩
      have settled : Settled (Pc.misplaced takes : Pc Call Result → Bool) := fun _ => rfl
      by_cases self : u = t
      · subst self
        have before := ih u
        rw [(own_step taken).1] at before
        rw [(own_step taken).2]
        cases op with
        | wait call =>
            rcases guarded_eq_some.mp taken with ⟨⟨_, waits⟩, _⟩
            simp [Op.target, Pc.misplaced, (supply.waits _ _ waits).1]
        | spurious call => exact before
        | act call found =>
            cases signal : (ops.body call found).notify <;>
              simp [Op.target, afterBody, signal, Pc.misplaced]
        | _ => rfl
      · rw [settled.other taken u self]
        exact ih u

theorem data_still (taken : step ops s (t, op) = some after)
    (idle : ∀ call found, op ≠ .act call found) : after.data = s.data := by
  rcases data_step taken with same | ⟨call, acts, _⟩
  · exact same
  · exact absurd acts (idle call _)

theorem act_notified {call : Call} {found : Data}
    (taken : step ops s (t, .act call found) = some after) :
    headcount Pc.notified after.pc = headcount Pc.notified s.pc := by
  have moved := quiet_moved Pc.notified taken fun _ _ => nofun
  cases signal : (ops.body call found).notify <;>
    simpa [Op.source, Op.target, afterBody, signal, Pc.notified] using moved

/-- Either nobody is parked, or everybody is about to be notified, or every item has a
thread that was notified of it, will notify of it or will take it. -/
theorem supplied (supply : Supply ops amount takes)
    (reached : Reaches (step ops) allowed (init data) trace s) :
    headcount Pc.isParked s.pc = 0 ∨ 0 < headcount Pc.announces s.pc ∨
      amount s.data ≤ headcount Pc.notified s.pc + headcount (Pc.claims takes) s.pc := by
  induction reached with
  | start => exact Or.inl (headcount_eq_zero.mpr fun _ => rfl)
  | @next trace s after label reached _ taken ih =>
      rcases label with ⟨t, op⟩
      have announcers := settled_announces.moved taken
      have claimers := (settled_claims takes).moved taken
      have quiet := quiet_moved Pc.notified taken
      cases op with
      | notifyAll result => exact Or.inl (notifyAll_wakes taken)
      | notifyOne result chosen =>
          have still := data_still taken fun _ _ => nofun
          cases chosen with
          | none =>
              rcases guarded_eq_some.mp taken with ⟨⟨_, nobody⟩, _⟩
              exact Or.inl (parked_none taken (fun _ => nofun) (headcount_eq_zero.mpr nobody))
          | some v =>
              rcases notifyOne_wakes taken with ⟨asleep, more⟩
              have parked := headcount_pos_of asleep
              simp only [Op.source, Op.target, Pc.announces, Pc.claims, Bool.toNat_false,
                Bool.toNat_true] at announcers claimers
              rw [still, more]
              omega
      | wait call =>
          rcases guarded_eq_some.mp taken with ⟨⟨_, waits⟩, _⟩
          rw [data_still taken fun _ _ => nofun, (supply.waits _ _ waits).2]
          exact Or.inr (Or.inr (Nat.zero_le _))
      | act call found =>
          rcases ih with nobody | rest
          · exact Or.inl (parked_none taken (fun _ => nofun) nobody)
          · rcases acts_ready reached taken with ⟨rfl, ready⟩
            have now : after.data = (ops.body call s.data).data := by
              rcases guarded_eq_some.mp taken with ⟨_, rfl⟩
              rfl
            have before : headcount Pc.announces after.pc = headcount Pc.announces s.pc +
                (afterBody (ops.body call s.data) : Pc Call Result).announces.toNat := announcers
            have own : headcount (Pc.claims takes) after.pc + (takes call).toNat =
                headcount (Pc.claims takes) s.pc +
                  ((afterBody (ops.body call s.data) : Pc Call Result).claims takes).toNat :=
              claimers
            have same : headcount Pc.notified after.pc = headcount Pc.notified s.pc :=
              act_notified taken
            rw [now]
            rcases act_supplied supply ready with all | fewer | none'
            · rw [all, Bool.toNat_true] at before
              omega
            · omega
            · omega
      | relock call notified =>
          rcases ih with nobody | rest
          · exact Or.inl (parked_none taken (fun _ => nofun) nobody)
          · have notifieds := quiet fun _ _ => nofun
            have placed := well_placed supply reached t
            rw [(own_step taken).1] at placed
            simp only [Op.source, Pc.misplaced, Bool.not_eq_false'] at placed
            cases notified <;>
              simp only [Op.source, Op.target, placed, Pc.announces, Pc.claims, Pc.notified,
                Bool.toNat_false, Bool.toNat_true] at announcers claimers notifieds <;>
              rw [data_still taken fun _ _ => nofun] <;> omega
      | _ =>
          rcases ih with nobody | rest
          · exact Or.inl (parked_none taken (fun _ => nofun) nobody)
          · have notifieds := quiet fun _ _ => nofun
            simp only [Op.source, Op.target, Pc.announces, Pc.claims, Pc.notified,
              Bool.toNat_false] at announcers claimers notifieds
            rw [data_still taken fun _ _ => nofun]
            omega

theorem never_announces (single : ∀ call data, (ops.body call data).notify ≠ some .all)
    (reached : Reaches (step ops) allowed (init data) trace s) :
    headcount Pc.announces s.pc = 0 := by
  induction reached with
  | start => exact headcount_eq_zero.mpr fun _ => rfl
  | next label _ _ taken ih =>
      rcases label with ⟨t, op⟩
      have moved := settled_announces.moved taken
      cases op with
      | act call found =>
          have plain : (afterBody (ops.body call found) : Pc Call Result).announces = false := by
            cases signal : (ops.body call found).notify with
            | none => simp [afterBody, signal, Pc.announces]
            | some notify =>
                cases notify with
                | one => simp [afterBody, signal, Pc.announces]
                | all => exact absurd signal (single call found)
          rw [Op.target, plain, ih] at moved
          simpa [Op.source, Pc.announces] using moved
      | notifyAll result =>
          rw [ih] at moved
          simp [Op.source, Op.target, Pc.announces] at moved
      | _ =>
          rw [ih] at moved
          simpa [Op.source, Op.target, Pc.announces] using moved

theorem released_awake (release : Release ops released)
    (reached : Reaches (step ops) allowed (init data) trace s)
    (free : released s.data = true) :
    headcount Pc.isParked s.pc = 0 ∨ 0 < headcount Pc.announces s.pc := by
  induction reached with
  | start => exact Or.inl (headcount_eq_zero.mpr fun _ => rfl)
  | @next trace s after label reached _ taken ih =>
      rcases label with ⟨t, op⟩
      have announcers := settled_announces.moved taken
      cases op with
      | notifyAll result => exact Or.inl (notifyAll_wakes taken)
      | wait call =>
          rcases guarded_eq_some.mp taken with ⟨⟨_, waits⟩, _⟩
          rw [data_still taken fun _ _ => nofun, release.waits _ _ waits] at free
          cases free
      | act call found =>
          rcases guarded_eq_some.mp taken with ⟨⟨_, rfl⟩, same⟩
          cases before : released s.data with
          | true =>
              rcases ih before with nobody | someone
              · exact Or.inl (parked_none taken (fun _ => nofun) nobody)
              · simp only [Op.source, Pc.announces, Bool.toNat_false] at announcers
                omega
          | false =>
              have all := release.announced call s.data before (by rw [← free, ← same])
              simp only [Op.source, Op.target, afterBody, all, Pc.announces, Bool.toNat_false,
                Bool.toNat_true] at announcers
              omega
      | _ =>
          rw [data_still taken fun _ _ => nofun] at free
          rcases ih free with nobody | someone
          · exact Or.inl (parked_none taken (fun _ => nofun) nobody)
          · simp only [Op.source, Op.target, Pc.announces, Bool.toNat_false] at announcers
            omega

theorem parked_supplied (supply : Supply ops amount takes)
    (reached : Reaches (step ops) allowed (init data) trace s) (free : s.mutex = none)
    (asleep : (s.pc u).isParked = true) : amount s.data ≤ headcount Pc.notified s.pc := by
  have someone := headcount_pos_of asleep
  have announcers := nobody_holds (sound reached) free announces_holds
  have claimers : headcount (Pc.claims takes) s.pc = 0 :=
    nobody_holds (sound reached) free claims_holds
  rcases supplied supply reached with nobody | rest
  · omega
  · omega

theorem parked_unreleased (release : Release ops released)
    (reached : Reaches (step ops) allowed (init data) trace s) (free : s.mutex = none)
    (asleep : (s.pc u).isParked = true) : released s.data = false := by
  have someone := headcount_pos_of asleep
  have announcers := nobody_holds (sound reached) free announces_holds
  cases now : released s.data with
  | false => rfl
  | true =>
      have awake := released_awake release reached now
      omega

theorem parked_attended (supply : Supply ops amount takes)
    (single : ∀ call data, (ops.body call data).notify ≠ some .all)
    (reached : Reaches (step ops) allowed (init data) trace s)
    (left : 0 < amount s.data) (asleep : (s.pc u).isParked = true) :
    ∃ v, (s.pc v).notified = true ∨ (s.pc v).claims takes = true := by
  have someone := headcount_pos_of asleep
  have announcers := never_announces single reached
  rcases supplied supply reached with nobody | announced | enough
  · omega
  · omega
  · have attended : 0 < headcount Pc.notified s.pc ∨ 0 < headcount (Pc.claims takes) s.pc := by
      omega
    rcases attended with notified | claims
    · rcases headcount_pos.mp notified with ⟨v, here⟩
      exact ⟨v, Or.inl here⟩
    · rcases headcount_pos.mp claims with ⟨v, here⟩
      exact ⟨v, Or.inr here⟩

end Parked
end ConcurrencyCourse.Monitor
