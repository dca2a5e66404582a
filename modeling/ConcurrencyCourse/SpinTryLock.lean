import Mathlib.Data.Fintype.Card
import ConcurrencyCourse.TASSpinLock

/-!
`TASSpinLock::TryLock` of tasks/mutex/spinlock/spinlock.hpp, one label per atomic
operation on one shared memory. TryLock loads `locked_` and, unless that reads 1,
calls Lock, whose loop then waits for whoever has taken the lock in between. This file
settles when that happens, and what a TryLock that fails leaves behind.
-/

namespace ConcurrencyCourse.SpinTryLock

open Interleaving

/-- `exchange` stands before the exchange of the loop in Lock; `tried` marks the calls
of Lock that TryLock makes. -/
inductive Pc where
  | outside
  | tryLock
  | exchange (tried : Bool)
  | critical
  deriving DecidableEq

inductive Op where
  | callLock
  | callTryLock
  | load (value : Int64)
  | exchange (tried : Bool) (old : Int64)
  | unlock
  deriving DecidableEq

structure State (Thread : Type) where
  locked : Int64
  pc : Thread → Pc

variable {Thread : Type}

def init : State Thread := { locked := 0, pc := fun _ => .outside }

def Bit (s : State Thread) : Prop := s.locked = 0 ∨ s.locked = 1

def afterLoad (value : Int64) : Pc := if value = 1 then .outside else .exchange true

def afterExchange (tried : Bool) (old : Int64) : Pc :=
  if old ≠ 0 then .exchange tried else .critical

def insideTry : Pc → Bool
  | .tryLock | .exchange true => true
  | _ => false

section Step
variable [DecidableEq Thread]

def step (s : State Thread) : Thread × Op → Option (State Thread)
  | (t, .callLock) => guarded (s.pc t = .outside)
      { s with pc := Function.update s.pc t (.exchange false) }
  | (t, .callTryLock) => guarded (s.pc t = .outside)
      { s with pc := Function.update s.pc t .tryLock }
  | (t, .load value) => guarded (s.pc t = .tryLock ∧ s.locked = value)
      { s with pc := Function.update s.pc t (afterLoad value) }
  | (t, .exchange tried old) => guarded (s.pc t = .exchange tried ∧ s.locked = old)
      { s with
        locked := 1
        pc := Function.update s.pc t (afterExchange tried old) }
  | (t, .unlock) => guarded (s.pc t = .critical)
      { s with
        locked := 0
        pc := Function.update s.pc t .outside }

/-- The thread returns from TryLock by its own steps, wherever the others stop. -/
def ReturnsAlone (t : Thread) (s : State Thread) : Prop :=
  FinishesAlone step (fun label => label.1 = t) (fun s => insideTry (s.pc t) = false) s

def NonWaiting (s : State Thread) : Prop :=
  ∀ t, insideTry (s.pc t) = true → ReturnsAlone t s

/-- Nobody takes the lock while a TryLock of another thread stands between a load that
did not read 1 and its exchange. -/
def Undisturbed (s : State Thread) : Thread × Op → Prop
  | (t, .exchange _ old) => old = 0 → ∀ u, u ≠ t → s.pc u ≠ .exchange true
  | _ => True

instance [Fintype Thread] (s : State Thread) (label : Thread × Op) :
    Decidable (Undisturbed s label) :=
  match label with
  | (t, .exchange _ old) =>
      inferInstanceAs (Decidable (old = 0 → ∀ u, u ≠ t → s.pc u ≠ .exchange true))
  | (_, .callLock) | (_, .callTryLock) | (_, .load _) | (_, .unlock) =>
      inferInstanceAs (Decidable True)

variable {s after : State Thread} {t : Thread} {op : Op} {trace : List (Thread × Op)}

/-! What returns alone. -/

theorem exchange_returns (here : s.pc t = .exchange true) (free : s.locked = 0) :
    ReturnsAlone t s := by
  apply FinishesAlone.goes
  · exact ⟨(t, .exchange true 0), rfl, by simp [step, here, free]⟩
  · rintro ⟨_, op⟩ after rfl taken
    cases op <;> simp [step, here, free] at taken
    obtain ⟨⟨rfl, rfl⟩, rfl⟩ := taken
    exact .finished (by simp [afterExchange, insideTry])

theorem load_returns (here : s.pc t = .tryLock) (bit : Bit s) :
    ReturnsAlone t s := by
  apply FinishesAlone.goes
  · exact ⟨(t, .load s.locked), rfl, by simp [step, here]⟩
  · rintro ⟨_, op⟩ after rfl taken
    cases op <;> simp [step, here] at taken
    obtain ⟨rfl, rfl⟩ := taken
    rcases bit with free | held
    · exact exchange_returns (by simp [free, afterLoad]) free
    · exact .finished (by simp [held, afterLoad, insideTry])

theorem exchange_stuck (here : s.pc t = .exchange true) (held : s.locked = 1) :
    ¬ ReturnsAlone t s := by
  intro returns
  have same : Function.update s.pc t (.exchange true) = s.pc := by rw [← here]; simp
  -- The exchange reads 1, writes 1 and comes back to itself.
  have loops : step s (t, .exchange true 1) = some s := by
    simp [step, here, held, afterExchange, same]
    rw [← held]
  exact returns.no_loop (by simp [here, insideTry]) rfl loops

/-! The runs. -/

theorem bit_step (bit : Bit s) (taken : step s (t, op) = some after) : Bit after := by
  cases op with
  | exchange tried old =>
      rcases guarded_eq_some.mp taken with ⟨_, rfl⟩
      exact Or.inr rfl
  | unlock =>
      rcases guarded_eq_some.mp taken with ⟨_, rfl⟩
      exact Or.inl rfl
  | callLock | callTryLock | load =>
      rcases guarded_eq_some.mp taken with ⟨_, rfl⟩
      exact bit

theorem bit_reached {allowed : State Thread → Thread × Op → Prop}
    (reached : Reaches step allowed init trace s) : Bit s :=
  reached.invariant (Or.inl rfl) fun _ _ _ bit _ taken => bit_step bit taken

def Current (s : State Thread) : Prop := ∀ t, s.pc t = .exchange true → s.locked = 0

theorem nonWaiting_of_current (bit : Bit s) (current : Current s) :
    NonWaiting s := by
  intro t inside
  cases here : s.pc t with
  | tryLock => exact load_returns here bit
  | exchange tried =>
      cases tried with
      | true => exact exchange_returns here (current t here)
      | false => simp [here, insideTry] at inside
  | outside | critical => simp [here, insideTry] at inside

theorem current_step (bit : Bit s) (current : Current s)
    (undisturbed : Undisturbed s (t, op)) (taken : step s (t, op) = some after) :
    Current after := by
  intro u there
  cases op with
  | callLock | callTryLock =>
      rcases guarded_eq_some.mp taken with ⟨_, rfl⟩
      by_cases self : u = t
      · simp [self] at there
      · exact current u (by simpa [self] using there)
  | load value =>
      rcases guarded_eq_some.mp taken with ⟨⟨_, rfl⟩, rfl⟩
      by_cases self : u = t
      · -- The load itself did not read 1.
        refine bit.resolve_right fun held => ?_
        simp [self, held, afterLoad] at there
      · exact current u (by simpa [self] using there)
  | exchange tried old =>
      rcases guarded_eq_some.mp taken with ⟨⟨here, rfl⟩, rfl⟩
      by_cases self : u = t
      · subst self
        -- The lock was free where its own TryLock stands, so the exchange gets it.
        by_cases free : s.locked = 0
        · simp [free, afterExchange] at there
        · have own : tried = true := by simpa [free, afterExchange] using there
          exact absurd (current u (own ▸ here)) free
      -- Somebody else is before its exchange: this one does not take the lock.
      · have waits : s.pc u = .exchange true := by simpa [self] using there
        exact absurd waits (undisturbed (current u waits) u self)
  | unlock =>
      rcases guarded_eq_some.mp taken with ⟨_, rfl⟩
      rfl

theorem disturbed_waits (disturbed : ¬ Undisturbed s (t, op))
    (taken : step s (t, op) = some after) : ¬ NonWaiting after := by
  cases op with
  -- The lock is taken, and the other thread tests no more before it exchanges.
  | exchange tried old =>
      simp only [Undisturbed, not_forall, not_not] at disturbed
      obtain ⟨_, u, other, waits⟩ := disturbed
      rcases guarded_eq_some.mp taken with ⟨_, rfl⟩
      intro nonWaiting
      have still : Function.update s.pc t (afterExchange tried old) u = .exchange true := by
        simpa [other] using waits
      exact exchange_stuck still rfl (nonWaiting u (by simp [still, insideTry]))
  | callLock | callTryLock | load | unlock => exact absurd trivial disturbed

theorem pc_others {u : Thread} (other : t ≠ u) (taken : step s (u, op) = some after) :
    after.pc t = s.pc t := by
  cases op <;>
  · rcases guarded_eq_some.mp taken with ⟨_, rfl⟩
    exact Function.update_of_ne other _ _

/-- The state as it would be if the thread had not called TryLock, before its load. -/
def withoutCall (t : Thread) (s : State Thread) : State Thread :=
  { s with pc := Function.update s.pc t .outside }

theorem step_elsewhere {u : Thread} (other : u ≠ t) (taken : step s (u, op) = some after) :
    step (withoutCall t s) (u, op) = some (withoutCall t after) := by
  have apart : ∀ next, Function.update (Function.update s.pc t .outside) u next =
      Function.update (Function.update s.pc u next) t .outside :=
    fun next => Function.update_comm other.symm _ _ _
  cases op <;>
  · rcases guarded_eq_some.mp taken with ⟨here, rfl⟩
    simp [step, withoutCall, other, here, apart]

theorem tryLock_called (taken : step s (t, op) = some after) (here : after.pc t = .tryLock) :
    (t, op) = (t, .callTryLock) ∧ withoutCall t after = s := by
  cases op with
  | callTryLock =>
      rcases guarded_eq_some.mp taken with ⟨out, rfl⟩
      refine ⟨rfl, ?_⟩
      simp [withoutCall, ← out]
  | callLock | unlock =>
      rcases guarded_eq_some.mp taken with ⟨_, rfl⟩
      simp at here
  | load value =>
      rcases guarded_eq_some.mp taken with ⟨_, rfl⟩
      by_cases held : value = 1 <;> simp [afterLoad, held] at here
  | exchange tried old =>
      rcases guarded_eq_some.mp taken with ⟨_, rfl⟩
      by_cases free : old = 0 <;> simp [afterExchange, free] at here

theorem call_erased (reached : Reaches step unrestricted init trace s)
    (here : s.pc t = .tryLock) :
    ∃ early middle, trace = early ++ (t, .callTryLock) :: middle ∧
      (∀ label ∈ middle, label.1 ≠ t) ∧
      Reaches step unrestricted init (early ++ middle) (withoutCall t s) := by
  -- Its own call is dropped; the steps of the others do not read its program counter.
  have square : ∀ trace s label after, Reaches step unrestricted (init : State Thread) trace s →
      step s label = some after → after.pc t = .tryLock →
      (label = (t, .callTryLock) ∧ withoutCall t after = s) ∨
        (s.pc t = .tryLock ∧ label.1 = t ∧ False ∧ withoutCall t after = withoutCall t s) ∨
        (s.pc t = .tryLock ∧ ¬ label.1 = t ∧
          step (withoutCall t s) label = some (withoutCall t after)) := by
    rintro trace s ⟨u, op⟩ after _ taken there
    by_cases self : u = t
    · subst self
      exact Or.inl (tryLock_called taken there)
    · rw [pc_others (Ne.symm self) taken] at there
      exact Or.inr (Or.inr ⟨there, self, step_elsewhere self taken⟩)
  obtain ⟨early, _, middle, split, rfl, others, without⟩ :=
    reached.erase (fun label => label.1 = t) (fun there => nomatch there) square here
  have apart : ∀ label ∈ middle, label.1 ≠ t := others
  have all : (middle.filter fun label => ¬ label.1 = t) = middle :=
    List.filter_eq_self.mpr fun label member => decide_eq_true (apart label member)
  exact ⟨early, middle, split, apart, all ▸ without⟩

theorem returns_true_iff (taken : step s (t, op) = some after)
    (inside : insideTry (s.pc t) = true) : after.pc t = .critical ↔ op = .exchange true 0 := by
  cases op with
  | callLock | callTryLock | unlock =>
      rcases guarded_eq_some.mp taken with ⟨here, _⟩
      simp [here, insideTry] at inside
  | load value =>
      rcases guarded_eq_some.mp taken with ⟨_, rfl⟩
      by_cases held : value = 1 <;> simp [afterLoad, held]
  | exchange tried old =>
      rcases guarded_eq_some.mp taken with ⟨⟨here, _⟩, rfl⟩
      cases tried with
      | false => simp [here, insideTry] at inside
      | true => by_cases free : old = 0 <;> simp [afterExchange, free]

theorem current_reached (reached : Reaches step Undisturbed init trace s) : Current s := by
  induction reached with
  | start => exact fun _ here => nomatch here
  | @next _ _ _ label reached undisturbed taken ih =>
      exact current_step (bit_reached reached) ih undisturbed taken

/-- TryLock waits for nobody exactly in the runs in which nobody takes the lock between
the load and the exchange of another thread's TryLock: these are the runs in every state
of which every thread inside TryLock returns by its own steps. In all runs it returns true
exactly when its exchange reads 0, and a run in which it returns false leads to the same
state without that call. -/
theorem spin_try_lock_nonwaiting (trace : List (Thread × Op)) (s : State Thread) :
    (∀ (s after : State Thread) t op, step s (t, op) = some after → insideTry (s.pc t) = true →
      (after.pc t = .critical ↔ op = .exchange true 0)) ∧
    (∀ before t, trace = before ++ [(t, .load 1)] → Reaches step unrestricted init trace s →
      ∃ early middle, before = early ++ (t, .callTryLock) :: middle ∧
        (∀ label ∈ middle, label.1 ≠ t) ∧
        Reaches step unrestricted init (early ++ middle) s) ∧
    (Reaches step Undisturbed init trace s ↔ Reaches step unrestricted init trace s ∧
      ∀ early s', early <+: trace → Reaches step unrestricted init early s' →
        NonWaiting s') := by
  refine ⟨fun _ _ _ _ taken inside => returns_true_iff taken inside, ?_, ?_⟩
  · rintro before t rfl reached
    obtain ⟨last, earlier, _, taken⟩ := reaches_snoc.mp reached
    rcases guarded_eq_some.mp taken with ⟨⟨here, _⟩, rfl⟩
    exact call_erased earlier here
  · apply reaches_exactly
    · intro trace s reached
      exact nonWaiting_of_current (bit_reached reached) (current_reached reached)
    · rintro trace s ⟨t, op⟩ after _ taken disturbed
      exact disturbed_waits disturbed taken

/-- Thread 1 gets in through TryLock after thread 0, whose own TryLock is then refused. -/
theorem spin_try_lock_nonwaiting_refused :
    ∃ (trace : List (Fin 2 × Op)) (s : State (Fin 2)), run step init trace = some s ∧
      s.pc 1 = .critical ∧ s.pc 0 = .outside ∧ NonWaiting s := by
  have ran : run (restricted step Undisturbed) (init : State (Fin 2))
      [(0, .callLock), (0, .exchange false 0), (0, .unlock), (0, .callTryLock),
        (1, .callTryLock), (1, .load 0), (1, .exchange true 0), (0, .load 1)] = some _ := rfl
  have reached := run_reaches ran
  have good := (spin_try_lock_nonwaiting _ _).2.2.mp reached
  exact ⟨_, _, reached.runs, rfl, rfl, good.2 _ _ (List.prefix_refl _) good.1⟩

/-- Between the load and the exchange of thread 0 in TryLock thread 1 takes the lock; if it
keeps it, TryLock never returns. -/
theorem spin_try_lock_waits :
    ¬ ∀ (trace : List (Fin 2 × Op)) (s : State (Fin 2)),
      Reaches step unrestricted init trace s → NonWaiting s := by
  intro nonWaiting
  have ran : run step (init : State (Fin 2))
      [(0, .callTryLock), (0, .load 0), (1, .callLock), (1, .exchange false 0)] = some _ := rfl
  exact exchange_stuck rfl rfl (nonWaiting _ _ (run_free ran) 0 rfl)

end Step

/-! These are the threads of `TASSpinLock.clients`, which begin Lock and TryLock with their
first access to memory. -/
section Refinement
variable {Data : Type}

/-- Where the client of the coarser program stands. A Lock that has not exchanged yet has
not begun there. -/
inductive Stands : Pc → TASSpinLock.Pc → Prop where
  | outside : Stands .outside .outside
  | tryLock : Stands .tryLock .outside
  | called : Stands (.exchange false) .outside
  | locking {tried : Bool} : Stands (.exchange tried) .locking
  | critical : Stands .critical .critical

def observe : Thread × Op → Option (Thread × TASSpinLock.Op Data)
  | (t, .load value) => some (t, .tryLoad value)
  | (t, .exchange _ old) => some (t, .exchange old)
  | (t, .unlock) => some (t, .unlock)
  | _ => none

structure Refines (s : State Thread)
    (shared : StoreBuffer.Shared Thread (TASSpinLock.Cell Data) Int64 TASSpinLock.Pc) : Prop where
  locked : shared.memory .locked = s.locked
  stands : ∀ t, Stands (s.pc t) (shared.control t)

theorem stands_afterLoad (value : Int64) :
    Stands (afterLoad value) (if value = 1 then .outside else .locking) := by
  by_cases held : value = 1
  · simpa [afterLoad, held] using .outside
  · simpa [afterLoad, held] using .locking

theorem stands_afterExchange (tried : Bool) (old : Int64) :
    Stands (afterExchange tried old) (TASSpinLock.afterExchange old) := by
  by_cases free : old = 0
  · simpa [afterExchange, TASSpinLock.afterExchange, free] using .critical
  · simpa [afterExchange, TASSpinLock.afterExchange, free] using .locking

variable [DecidableEq Thread] {s after : State Thread} {t : Thread}
  {shared : StoreBuffer.Shared Thread (TASSpinLock.Cell Data) Int64 TASSpinLock.Pc}

theorem stands_update {pc : Pc} {pc' : TASSpinLock.Pc}
    (stands : ∀ u, Stands (s.pc u) (shared.control u)) (next : Stands pc pc') (u : Thread) :
    Stands (Function.update s.pc t pc u) (Function.update shared.control t pc' u) := by
  by_cases self : u = t
  · simpa [self] using next
  · simpa [self] using stands u

theorem refines_call (refines : Refines s shared) {pc : Pc} (here : s.pc t = .outside)
    (begun : Stands pc .outside) :
    Refines { s with pc := Function.update s.pc t pc } shared := by
  have own := refines.stands t
  generalize stands : shared.control t = control at own
  rw [here] at own
  cases own
  refine ⟨refines.locked, fun u => ?_⟩
  have moved := stands_update (t := t) refines.stands begun u
  rwa [← stands, Function.update_eq_self] at moved

variable [DecidableEq Data]

theorem refines_step {label : Thread × Op} (refines : Refines s shared)
    (taken : step s label = some after) :
    ((observe label : Option (Thread × TASSpinLock.Op Data)) = none ∧ Refines after shared) ∨
      ∃ visible next, observe label = some visible ∧
        StoreBuffer.sharedStep (TASSpinLock.clients Thread Data) shared visible = some next ∧
        Refines after next := by
  obtain ⟨t, op⟩ := label
  have own := refines.stands t
  generalize stands : shared.control t = control at own
  cases op with
  -- Calls are not yet visible: the coarser client begins with the first access.
  | callLock =>
      rcases guarded_eq_some.mp taken with ⟨here, rfl⟩
      exact Or.inl ⟨rfl, refines_call refines here .called⟩
  | callTryLock =>
      rcases guarded_eq_some.mp taken with ⟨here, rfl⟩
      exact Or.inl ⟨rfl, refines_call refines here .tryLock⟩
  | load value =>
      rcases guarded_eq_some.mp taken with ⟨⟨here, read⟩, rfl⟩
      rw [here] at own
      cases own
      have goes : (TASSpinLock.clients Thread Data).goes t (shared.control t) (.tryLoad value) =
          some (if value = 1 then .outside else .locking) := by rw [stands]; rfl
      have loads : shared.executes (.load .locked value) = some shared :=
        guarded_eq_some.mpr ⟨refines.locked.trans read, rfl⟩
      refine Or.inr ⟨_, _, rfl, StoreBuffer.sharedStep_eq_some.mpr ⟨_, _, goes, loads, rfl⟩, ?_⟩
      exact ⟨refines.locked, stands_update refines.stands (stands_afterLoad value)⟩
  | exchange tried old =>
      rcases guarded_eq_some.mp taken with ⟨⟨here, read⟩, rfl⟩
      rw [here] at own
      have goes : (TASSpinLock.clients Thread Data).goes t (shared.control t) (.exchange old) =
          some (TASSpinLock.afterExchange old) := by
        rw [stands]
        cases own <;> rfl
      have exchanges : shared.executes (.exchange .locked old 1) =
          some { shared with memory := Function.update shared.memory .locked 1 } :=
        guarded_eq_some.mpr ⟨refines.locked.trans read, rfl⟩
      refine Or.inr
        ⟨_, _, rfl, StoreBuffer.sharedStep_eq_some.mpr ⟨_, _, goes, exchanges, rfl⟩, ?_⟩
      exact ⟨by simp, stands_update refines.stands (stands_afterExchange tried old)⟩
  | unlock =>
      rcases guarded_eq_some.mp taken with ⟨here, rfl⟩
      rw [here] at own
      cases own
      have goes : (TASSpinLock.clients Thread Data).goes t (shared.control t) .unlock =
          some .outside := by rw [stands]; rfl
      refine Or.inr ⟨_, _, rfl, StoreBuffer.sharedStep_eq_some.mpr ⟨_, _, goes, rfl, rfl⟩, ?_⟩
      exact ⟨by simp, stands_update refines.stands .outside⟩

theorem try_lock_refines {allowed : State Thread → Thread × Op → Prop}
    {trace : List (Thread × Op)} (initial : Data → Int64)
    (reached : Reaches step allowed init trace s) :
    ∃ shared, Reaches (StoreBuffer.sharedStep (TASSpinLock.clients Thread Data)) unrestricted
      { memory := TASSpinLock.start initial, control := fun _ => .outside }
      (trace.filterMap observe) shared ∧ Refines s shared := by
  refine reached.simulates observe Refines ⟨rfl, fun _ => .outside⟩ ?_
  intro s label after shared refines _ taken
  exact refines_step refines taken

end Refinement
end ConcurrencyCourse.SpinTryLock
