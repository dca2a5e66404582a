import ConcurrencyCourse.Fairness

/-!
`TASSpinLock` of tasks/coroutine/mtf/support, the lock in a StackPool. Its inner loop only
loads `atomic_` and leaves the exchange until it has seen false, so however long a thread
waits, its exchanges fail no more often than others take the lock.
-/

namespace ConcurrencyCourse.SupportSpinLock

open Interleaving Fairness

/-- Before `atomic_.exchange(true)` and before `atomic_.load()`. -/
inductive Pc where
  | outside
  | exchange
  | load
  | critical
  deriving DecidableEq

inductive Op where
  | callLock
  | exchange (old : Bool)
  | load (value : Bool)
  | unlock
  deriving DecidableEq

structure State (Thread : Type) where
  atomic : Bool
  pc : Thread → Pc

abbrev Label (Thread : Type) := Thread × Op

variable {Thread : Type}

def init : State Thread := { atomic := false, pc := fun _ => .outside }

def afterExchange (old : Bool) : Pc := if old then .load else .critical

def afterLoad (value : Bool) : Pc := if value then .load else .exchange

variable [DecidableEq Thread]

def step (s : State Thread) : Label Thread → Option (State Thread)
  | (t, .callLock) => guarded (s.pc t = .outside)
      { s with pc := Function.update s.pc t .exchange }
  | (t, .exchange old) => guarded (s.pc t = .exchange ∧ s.atomic = old)
      { s with
        atomic := true
        pc := Function.update s.pc t (afterExchange old) }
  | (t, .load value) => guarded (s.pc t = .load ∧ s.atomic = value)
      { s with pc := Function.update s.pc t (afterLoad value) }
  | (t, .unlock) => guarded (s.pc t = .critical)
      { s with
        atomic := false
        pc := Function.update s.pc t .outside }

variable {s after : State Thread} {t u : Thread} {label : Label Thread}
  {trace : List (Label Thread)}

structure Sound (s : State Thread) : Prop where
  owned : s.atomic = true → ∃ t, s.pc t = .critical
  held : ∀ t, s.pc t = .critical → s.atomic = true
  single : ∀ t u, s.pc t = .critical → s.pc u = .critical → t = u

theorem pc_elsewhere (taken : step s label = some after) (other : t ≠ label.1) :
    after.pc t = s.pc t := by
  obtain ⟨v, op⟩ := label
  cases op <;>
  · obtain ⟨_, rfl⟩ := guarded_eq_some.mp taken
    exact Function.update_of_ne other ..

theorem Sound.outside (sound : Sound s) (out : s.pc t ≠ .critical) {next : Pc}
    (still : next ≠ .critical) : Sound { s with pc := Function.update s.pc t next } := by
  have same (v : Thread) : Function.update s.pc t next v = .critical ↔ s.pc v = .critical := by
    by_cases self : v = t
    · subst self
      simp [still, out]
    · simp [self]
  constructor
  · intro locked
    obtain ⟨owner, inside⟩ := sound.owned locked
    exact ⟨owner, (same owner).mpr inside⟩
  · exact fun v inside => sound.held v ((same v).mp inside)
  · exact fun v w first second => sound.single v w ((same v).mp first) ((same w).mp second)

theorem step_sound (sound : Sound s) (taken : step s label = some after) : Sound after := by
  obtain ⟨t, op⟩ := label
  cases op with
  | callLock =>
      obtain ⟨here, rfl⟩ := guarded_eq_some.mp taken
      exact sound.outside (by simp [here]) (by simp)
  | load value =>
      obtain ⟨⟨here, _⟩, rfl⟩ := guarded_eq_some.mp taken
      exact sound.outside (by simp [here]) (by cases value <;> simp [afterLoad])
  | exchange old =>
      obtain ⟨⟨here, found⟩, rfl⟩ := guarded_eq_some.mp taken
      cases old with
      -- An exchange that finds `true` leaves the owner as it is.
      | true =>
          have kept : Sound { s with pc := Function.update s.pc t .load } :=
            sound.outside (by simp [here]) (by simp)
          exact ⟨fun _ => kept.owned found, fun _ _ => rfl, kept.single⟩
      -- One that finds `false` has nobody inside, and comes in alone.
      | false =>
          have free (v : Thread) : s.pc v ≠ .critical := fun inside => by
            cases found.symm.trans (sound.held v inside)
          have only (v : Thread)
              (inside : Function.update s.pc t (afterExchange false) v = .critical) : v = t := by
            by_contra other
            rw [Function.update_of_ne other] at inside
            exact free v inside
          exact ⟨fun _ => ⟨t, Function.update_self ..⟩, fun _ _ => rfl,
            fun v w first second => (only v first).trans (only w second).symm⟩
  | unlock =>
      obtain ⟨here, rfl⟩ := guarded_eq_some.mp taken
      have nobody (v : Thread) : Function.update s.pc t .outside v ≠ .critical := by
        by_cases self : v = t
        · simp [self]
        · intro inside
          rw [Function.update_of_ne self] at inside
          exact self (sound.single v t inside here)
      exact ⟨nofun, fun v inside => absurd inside (nobody v),
        fun v _ inside => absurd inside (nobody v)⟩

omit [DecidableEq Thread] in
theorem init_sound : Sound (init : State Thread) := by
  constructor <;> simp [init]

theorem reaches_sound (reached : Reaches step unrestricted init trace s) : Sound s :=
  reached.invariant init_sound fun _ _ _ sound _ taken => step_sound sound taken

/-! How often the exchanges of a thread fail. -/

def calls (t : Thread) (trace : List (Label Thread)) : ℕ := trace.count (t, .callLock)

def failures (t : Thread) (trace : List (Label Thread)) : ℕ := trace.count (t, .exchange true)

def overtakes (t : Thread) : Label Thread → Bool
  | (u, .exchange false) => decide (u ≠ t)
  | _ => false

/-- A thread whose exchange is going to fail has not been charged for it yet: it comes from
its call, or somebody has taken the lock since it saw false. -/
structure Charged (t : Thread) (trace : List (Label Thread)) (s : State Thread) : Prop where
  paid : failures t trace ≤ calls t trace + trace.countP (overtakes t)
  next : s.pc t = .exchange → s.atomic = true →
    failures t trace + 1 ≤ calls t trace + trace.countP (overtakes t)

theorem charged_own {op : Op} (charged : Charged t trace s)
    (taken : step s (t, op) = some after) : Charged t (trace ++ [(t, op)]) after := by
  obtain ⟨paid, next⟩ := charged
  cases op with
  | callLock =>
      obtain ⟨_, rfl⟩ := guarded_eq_some.mp taken
      constructor
      · simp [failures, calls, overtakes] at paid ⊢
        omega
      · intro _ _
        simp [failures, calls, overtakes] at paid ⊢
        omega
  | exchange old =>
      obtain ⟨⟨here, found⟩, rfl⟩ := guarded_eq_some.mp taken
      cases old with
      | true =>
          have due := next here found
          refine ⟨?_, fun there => by simp [afterExchange] at there⟩
          simpa [failures, calls, overtakes] using due
      | false =>
          refine ⟨?_, fun there => by simp [afterExchange] at there⟩
          simpa [failures, calls, overtakes] using paid
  -- A load of `false` leads to an exchange that may still fail, but not in this state.
  | load value =>
      obtain ⟨⟨_, found⟩, rfl⟩ := guarded_eq_some.mp taken
      refine ⟨by simpa [failures, calls, overtakes] using paid, fun there locked => ?_⟩
      cases found.symm.trans locked
      simp [afterLoad] at there
  | unlock =>
      obtain ⟨_, rfl⟩ := guarded_eq_some.mp taken
      exact ⟨by simpa [failures, calls, overtakes] using paid, fun there => by simp at there⟩

theorem charged_other {op : Op} (charged : Charged t trace s) (other : u ≠ t)
    (taken : step s (u, op) = some after) : Charged t (trace ++ [(u, op)]) after := by
  obtain ⟨paid, next⟩ := charged
  have still := pc_elsewhere taken other.symm
  cases op with
  | callLock | load value =>
      obtain ⟨_, rfl⟩ := guarded_eq_some.mp taken
      refine ⟨by simpa [failures, calls, overtakes, other] using paid, fun there locked => ?_⟩
      simpa [failures, calls, overtakes, other] using next (still.symm.trans there) locked
  | exchange old =>
      obtain ⟨⟨_, found⟩, rfl⟩ := guarded_eq_some.mp taken
      cases old with
      | true =>
          refine ⟨by simpa [failures, calls, overtakes, other] using paid, fun there _ => ?_⟩
          simpa [failures, calls, overtakes, other] using next (still.symm.trans there) found
      -- The other thread takes the lock: one more that pays for a failure.
      | false =>
          constructor
          · simp [failures, calls, overtakes, other] at paid ⊢
            omega
          · intro _ _
            simp [failures, calls, overtakes, other] at paid ⊢
            omega
  | unlock =>
      obtain ⟨_, rfl⟩ := guarded_eq_some.mp taken
      exact ⟨by simpa [failures, calls, overtakes, other] using paid, fun _ => nofun⟩

theorem reaches_charged (reached : Reaches step unrestricted init trace s) (t : Thread) :
    Charged t trace s := by
  induction reached with
  | start => exact ⟨Nat.zero_le _, fun there => by simp [init] at there⟩
  | next label _ _ taken ih =>
      obtain ⟨u, op⟩ := label
      by_cases self : u = t
      · subst self
        exact charged_own ih taken
      · exact charged_other ih self taken

/-- The lock is exclusive, and it spins on loads: in every run the exchanges of a thread fail
at most once for each of its calls and once for each time that another thread has taken the
lock. -/
theorem failures_bounded (reached : Reaches step unrestricted init trace s) :
    (∀ t u, s.pc t = .critical → s.pc u = .critical → t = u) ∧
      ∀ t, failures t trace ≤ calls t trace + trace.countP (overtakes t) :=
  ⟨(reaches_sound reached).single, fun t => (reaches_charged reached t).paid⟩

/-- One thread finds the lock taken, loads twice and is overtaken once more. -/
theorem failures_bounded_overtaken :
    ∃ (trace : List (Label (Option Bool))) (s : State (Option Bool)),
      run step init trace = some s ∧ failures none trace = 2 ∧
      failures none trace ≤ calls none trace + trace.countP (overtakes none) := by
  have ran : run step (init : State (Option Bool))
      [(some true, .callLock), (some true, .exchange false), (none, .callLock),
        (none, .exchange true), (none, .load true), (some false, .callLock),
        (some true, .unlock), (none, .load false), (some false, .exchange false),
        (none, .exchange true), (none, .load true)] = some _ := rfl
  exact ⟨_, _, ran, rfl, (failures_bounded (run_free ran)).2 none⟩

section Progress

def owes (t : Thread) (_ : State Thread) (label : Label Thread) : Prop :=
  label.1 = t ∧ label.2 ≠ .callLock

def Pc.inLock : Pc → Bool
  | .exchange | .load => true
  | _ => false

/-- Loads until the next exchange of the free lock. -/
def Pc.distance : Pc → ℕ
  | .load => 1
  | _ => 0

structure Waits (t : Thread) (s : State Thread) : Prop where
  inside : (s.pc t).inLock = true
  free : s.atomic = false

theorem Waits.ready (waits : Waits t s) : Ready step owes t s := by
  cases here : s.pc t with
  | outside | critical =>
      have inside := waits.inside
      simp [Pc.inLock, here] at inside
  | exchange =>
      exact ⟨(t, .exchange false), ⟨rfl, nofun⟩, guarded_isSome.mpr ⟨here, waits.free⟩⟩
  | load => exact ⟨(t, .load false), ⟨rfl, nofun⟩, guarded_isSome.mpr ⟨here, waits.free⟩⟩

theorem Waits.own {op : Op} (waits : Waits t s) (taken : step s (t, op) = some after) :
    after.pc t = .critical ∨ Waits t after ∧ (after.pc t).distance < (s.pc t).distance := by
  obtain ⟨inside, free⟩ := waits
  cases op with
  | callLock | unlock =>
      obtain ⟨here, _⟩ := guarded_eq_some.mp taken
      simp [Pc.inLock, here] at inside
  | exchange old =>
      obtain ⟨⟨_, found⟩, rfl⟩ := guarded_eq_some.mp taken
      cases found.symm.trans free
      exact .inl (Function.update_self ..)
  | load value =>
      obtain ⟨⟨here, found⟩, rfl⟩ := guarded_eq_some.mp taken
      cases found.symm.trans free
      exact .inr ⟨⟨by simp [afterLoad, Pc.inLock], free⟩, by simp [afterLoad, Pc.distance, here]⟩

theorem Waits.other {op : Op} (waits : Waits t s) (other : u ≠ t)
    (taken : step s (u, op) = some after) :
    after.pc u = .critical ∨ Waits t after ∧ after.pc t = s.pc t := by
  have still := pc_elsewhere taken other.symm
  have inside : (after.pc t).inLock = true := still ▸ waits.inside
  cases op with
  | callLock | load value =>
      obtain ⟨_, rfl⟩ := guarded_eq_some.mp taken
      exact .inr ⟨⟨inside, waits.free⟩, still⟩
  | exchange old =>
      obtain ⟨⟨_, found⟩, rfl⟩ := guarded_eq_some.mp taken
      cases found.symm.trans waits.free
      exact .inl (Function.update_self ..)
  | unlock =>
      obtain ⟨_, rfl⟩ := guarded_eq_some.mp taken
      exact .inr ⟨⟨inside, rfl⟩, still⟩

theorem waits_measure (t : Thread) : Measure step owes (Waits t) (fun s => ∃ u, s.pc u = .critical)
    (fun s => (s.pc t).distance) fun helper _ => helper = t := by
  refine ⟨fun _ _ => ⟨t, rfl⟩, ?_, ?_⟩
  · rintro s _ waits rfl
    exact waits.ready
  · rintro s helper ⟨u, op⟩ after waits rfl taken
    by_cases self : u = helper
    · subst self
      rcases waits.own taken with owned | ⟨again, less⟩
      · exact .inl ⟨u, owned⟩
      · exact .inr ⟨again, .inl less⟩
    · rcases waits.other self taken with owned | ⟨again, still⟩
      · exact .inl ⟨u, owned⟩
      · exact .inr ⟨again, .inr ⟨by rw [still], rfl, fun own => self own.1⟩⟩

/-- Progress under weak fairness: whenever a thread is inside lock(), some thread has the lock
then or later. -/
theorem somebody_locks (e : Execution step (init : State Thread)) (fair : e.Fair owes)
    (t : Thread) :
    e.LeadsTo (fun s => (s.pc t).inLock = true) fun s => ∃ u, s.pc u = .critical := by
  intro n inside
  cases locked : (e.state n).atomic with
  | true =>
      obtain ⟨trace, reached⟩ := e.reaches n
      exact ⟨n, le_rfl, (reaches_sound reached).owned locked⟩
  | false => exact (waits_measure t).leadsTo fair n ⟨inside, locked⟩

/-- Two threads have the lock in turn, the second one after a failed exchange. -/
theorem somebody_locks_in_turn : ∃ e : Execution step (init : State Bool),
    e.Fair owes ∧ (∀ n, ∃ m, n ≤ m ∧ e.label m = some (false, .exchange true)) ∧
      e.LeadsTo (fun s => (s.pc false).inLock = true) fun s => ∃ u, s.pc u = .critical := by
  let round : List (Label Bool) :=
    [(true, .callLock), (true, .exchange false), (false, .callLock), (false, .exchange true),
      (true, .unlock), (false, .load false), (false, .exchange false), (false, .unlock)]
  have around : run step (init : State Bool) round = some init := by
    have ran : run step (init : State Bool) round = some _ := rfl
    exact ran.trans (congrArg some (congrArg₂ State.mk rfl (funext fun t => by cases t <;> rfl)))
  have fair : (Execution.cycle around (by simp [round])).Fair owes := by
    rintro t n -
    have member : (t, Op.unlock) ∈ round := by cases t <;> simp [round]
    obtain ⟨m, later, here⟩ := Execution.cycle_label member n
    exact ⟨m, later, _, here, rfl, by simp⟩
  exact ⟨_, fair, Execution.cycle_label (by simp [round]), somebody_locks _ fair false⟩

end Progress

end ConcurrencyCourse.SupportSpinLock
