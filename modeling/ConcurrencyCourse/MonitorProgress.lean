import ConcurrencyCourse.Monitor
import Mathlib.Algebra.BigOperators.Group.Finset.Piecewise

/-!
How far the calls of a monitor get. Each call is charged with its own steps and with those
that the threads it wakes may take in vain, so calls that are made come to an end of their
steps. Where no call can go on, the mutex is free and every call that has not returned is
parked.
-/

namespace ConcurrencyCourse.Monitor

open Interleaving Headcount

variable {Thread Data Call Result : Type}

structure Notifies (ops : Operations Data Call Result) (threads : ℕ) (wakes : Call → ℕ) :
    Prop where
  one : ∀ call data, (ops.body call data).notify = some .one → 1 ≤ wakes call
  all : ∀ call data, (ops.body call data).notify = some .all → threads ≤ wakes call

/-- The steps left in a call, and two more for each thread that it is going to wake. -/
def Pc.left (threads : ℕ) (wakes : Call → ℕ) : Pc Call Result → ℕ
  | .outside => 0
  | .entering call | .woken call _ => 6 + 2 * wakes call
  | .testing call => 5 + 2 * wakes call
  | .parked call => 4 + 2 * wakes call
  | .acting call => 3 + 2 * wakes call
  | .notifying _ .one => 4
  | .notifying _ .all => 2 + 2 * threads
  | .leaving _ => 1

def charge (wakes : Call → ℕ) : Label Thread Data Call Result → ℕ
  | (_, .invoke call) => 7 + 2 * wakes call
  | (_, .spurious _) => 3
  | _ => 0

def invokeOf : Label Thread Data Call Result → Option Call
  | (_, .invoke call) => some call
  | _ => none

def calls (trace : List (Label Thread Data Call Result)) : List Call :=
  trace.filterMap invokeOf

def isSpurious : Label Thread Data Call Result → Bool
  | (_, .spurious _) => true
  | _ => false

def spurious (trace : List (Label Thread Data Call Result)) : ℕ := trace.countP isSpurious

theorem charges_calls (wakes : Call → ℕ) (trace : List (Label Thread Data Call Result)) :
    (trace.map (charge wakes)).sum =
      ((calls trace).map fun call => 7 + 2 * wakes call).sum + 3 * spurious trace := by
  induction trace with
  | nil => rfl
  | cons label rest ih =>
      obtain ⟨t, op⟩ := label
      simp only [calls, spurious] at ih
      cases op <;>
        simp only [List.map_cons, List.sum_cons, ih, calls, spurious, charge, isSpurious, invokeOf,
          List.filterMap_cons, List.countP_cons, Bool.false_eq_true, if_false, if_true] <;>
        omega

theorem left_wake (threads : ℕ) (wakes : Call → ℕ) (pc : Pc Call Result) :
    pc.wake.left threads wakes ≤ pc.left threads wakes + 2 := by
  cases pc with
  -- A thread that is woken locks again and tests again.
  | parked call =>
      simp only [Pc.wake, Pc.left]
      omega
  | _ => exact Nat.le_add_right _ 2

theorem left_afterBody {ops : Operations Data Call Result} {threads : ℕ} {wakes : Call → ℕ}
    (notifies : Notifies ops threads wakes) (call : Call) (found : Data) :
    (afterBody (ops.body call found) : Pc Call Result).left threads wakes + 1 ≤
      3 + 2 * wakes call := by
  cases signal : (ops.body call found).notify with
  | none =>
      simp only [afterBody, signal, Pc.left]
      omega
  | some notify =>
      cases notify with
      | one =>
          have some' := notifies.one call found signal
          simp only [afterBody, signal, Pc.left]
          omega
      | all =>
          have enough := notifies.all call found signal
          simp only [afterBody, signal, Pc.left]
          omega

def Pc.pending (which : Call → Bool) : Pc Call Result → Bool
  | .entering call | .testing call | .parked call | .woken call _ | .acting call => which call
  | _ => false

theorem afterBody_pending (which : Call → Bool) (outcome : Outcome Data Result) :
    (afterBody outcome : Pc Call Result).pending which = false := by
  cases signal : outcome.notify <;> simp [afterBody, signal, Pc.pending]

section Progress
variable [Fintype Thread] [DecidableEq Thread] [DecidableEq Data] [DecidableEq Call]
  [DecidableEq Result] {ops : Operations Data Call Result}
  {s after : State Thread Data Call Result} {t u : Thread} {op : Op Thread Data Call Result}
  {wakes : Call → ℕ}
  {allowed : State Thread Data Call Result → Label Thread Data Call Result → Prop}
  {data : Data} {trace : List (Label Thread Data Call Result)}

/-- What a step may add to what is left to another thread. -/
def Op.stirs (op : Op Thread Data Call Result) (u : Thread) : ℕ :=
  match op with
  | .notifyOne _ chosen => if chosen = some u then 2 else 0
  | .notifyAll _ => 2
  | _ => 0

theorem left_other (threads : ℕ) (other : u ≠ t) (taken : step ops s (t, op) = some after) :
    (after.pc u).left threads wakes ≤ (s.pc u).left threads wakes + op.stirs u := by
  cases op with
  | notifyOne result chosen =>
      obtain ⟨_, rfl⟩ := guarded_eq_some.mp taken
      simp only [Function.update_of_ne other, Op.stirs]
      cases chosen with
      | none => exact Nat.le_add_right _ _
      | some v =>
          by_cases self : u = v
          · subst self
            simpa [wakeChosen] using left_wake threads wakes (s.pc u)
          · simp [wakeChosen, self]
  -- Everybody parked is woken.
  | notifyAll result =>
      obtain ⟨_, rfl⟩ := guarded_eq_some.mp taken
      simp only [Function.update_of_ne other, Op.stirs]
      exact left_wake threads wakes (s.pc u)
  | _ =>
      obtain ⟨_, rfl⟩ := guarded_eq_some.mp taken
      simp [other]

theorem left_own (notifies : Notifies ops (Fintype.card Thread) wakes)
    (taken : step ops s (t, op) = some after) :
    (after.pc t).left (Fintype.card Thread) wakes + ∑ u, op.stirs u + 1 ≤
      (s.pc t).left (Fintype.card Thread) wakes + charge wakes (t, op) := by
  obtain ⟨source, target⟩ := own_step taken
  rw [source, target]
  cases op with
  | act call found =>
      have paid := left_afterBody notifies call found
      simpa [Op.source, Op.target, Op.stirs, Pc.left, charge] using paid
  -- One thread at most gets two steps more, which the call was charged with.
  | notifyOne result chosen =>
      have few : ∑ u, (Op.notifyOne result chosen : Op Thread Data Call Result).stirs u ≤ 2 := by
        cases chosen with
        | none => simp [Op.stirs]
        | some v => simp [Op.stirs, Finset.sum_ite_eq]
      simp only [Op.source, Op.target, Pc.left, charge]
      omega
  | notifyAll result =>
      have every : ∑ u, (Op.notifyAll result : Op Thread Data Call Result).stirs u =
          2 * Fintype.card Thread := by
        simp [Op.stirs, mul_comm]
      simp only [Op.source, Op.target, Pc.left, charge, every]
      omega
  | _ =>
      simp only [Op.source, Op.target, Op.stirs, Pc.left, charge, Finset.sum_const_zero]
      omega

/-- No run is longer than what its calls and its spurious wake-ups are charged with. -/
theorem length_le_calls (notifies : Notifies ops (Fintype.card Thread) wakes)
    (reached : Reaches (step ops) allowed (init data) trace s) :
    trace.length ≤ ((calls trace).map fun call => 7 + 2 * wakes call).sum + 3 * spurious trace := by
  have paid := reached.length_le_charges
    (fun s => ∑ u, (s.pc u).left (Fintype.card Thread) wakes) (charge wakes)
    (by simp [init, Pc.left]) fun trace s label after _ _ taken => by
      obtain ⟨t, op⟩ := label
      have others : ∀ u, u ≠ t → (after.pc u).left (Fintype.card Thread) wakes ≤
          (s.pc u).left (Fintype.card Thread) wakes + op.stirs u :=
        fun u other => left_other (Fintype.card Thread) other taken
      -- Only the own summand falls; what the others gain is what the step stirs.
      have moved := sum_moved_le others
      have own := left_own notifies taken
      rw [Finset.sum_add_distrib] at moved
      omega
  rw [charges_calls] at paid
  omega

/-! Calls that cannot go on. -/

def Op.goesOn : Op Thread Data Call Result → Bool
  | .invoke _ | .spurious _ => false
  | _ => true

def Idle (ops : Operations Data Call Result) (s : State Thread Data Call Result) : Prop :=
  ∀ t op, op.goesOn = true → step ops s (t, op) = none

theorem Idle.unable (idle : Idle ops s) (op : Op Thread Data Call Result)
    (goesOn : op.goesOn = true) (able : step ops s (t, op) = some after) : False := by
  cases able.symm.trans (idle t op goesOn)

theorem Idle.free (idle : Idle ops s) (sound : Sound ops s) : s.mutex = none := by
  cases owner : s.mutex with
  | none => rfl
  | some v =>
      exfalso
      have holds := (sound.holder v).mpr owner
      cases here : s.pc v with
      | testing call =>
          cases blocked : ops.waits call s.data with
          | true =>
              exact idle.unable (.wait call) rfl (guarded_eq_some.mpr ⟨⟨here, blocked⟩, rfl⟩)
          | false =>
              exact idle.unable (.pass call) rfl (guarded_eq_some.mpr ⟨⟨here, blocked⟩, rfl⟩)
      | acting call =>
          exact idle.unable (.act call s.data) rfl (guarded_eq_some.mpr ⟨⟨here, rfl⟩, rfl⟩)
      | notifying result notify =>
          cases notify with
          | one =>
              obtain ⟨chosen, wakes⟩ := wakes_exists Pc.isParked s.pc
              exact idle.unable (.notifyOne result chosen) rfl
                (guarded_eq_some.mpr ⟨⟨here, wakes⟩, rfl⟩)
          | all =>
              exact idle.unable (.notifyAll result) rfl (guarded_eq_some.mpr ⟨here, rfl⟩)
      | leaving result =>
          exact idle.unable (.unlock result) rfl (guarded_eq_some.mpr ⟨here, rfl⟩)
      | _ =>
          rw [here] at holds
          cases holds

theorem Idle.threads (idle : Idle ops s) (sound : Sound ops s) (u : Thread) :
    s.pc u = .outside ∨ ∃ call, s.pc u = .parked call := by
  have free := idle.free sound
  have away : (s.pc u).holds = false := by
    cases holds : (s.pc u).holds with
    | false => rfl
    | true => cases free.symm.trans ((sound.holder u).mp holds)
  cases here : s.pc u with
  | outside => exact .inl rfl
  | parked call => exact .inr ⟨call, rfl⟩
  | entering call =>
      exact (idle.unable (.lock call) rfl (guarded_eq_some.mpr ⟨⟨here, free⟩, rfl⟩)).elim
  | woken call notified =>
      exact (idle.unable (.relock call notified) rfl
        (guarded_eq_some.mpr ⟨⟨here, free⟩, rfl⟩)).elim
  | _ =>
      rw [here] at away
      cases away

theorem Idle.nobody_notified (idle : Idle ops s) (sound : Sound ops s) :
    headcount Pc.notified s.pc = 0 := by
  refine headcount_eq_zero.mpr fun u => ?_
  rcases idle.threads sound u with outside | ⟨call, parked⟩
  · rw [outside]
    rfl
  · rw [parked]
    rfl

theorem Idle.starved {amount : Data → ℕ} {takes : Call → Bool} {call : Call} (idle : Idle ops s)
    (supply : Supply ops amount takes) (reached : Reaches (step ops) allowed (init data) trace s)
    (parked : s.pc t = .parked call) : takes call = true ∧ amount s.data = 0 := by
  have placed := well_placed supply reached t
  have sound := sound reached
  have enough := parked_supplied supply reached (idle.free sound) (u := t) (by rw [parked]; rfl)
  rw [idle.nobody_notified sound] at enough
  exact ⟨by simpa [parked, Pc.misplaced] using placed, Nat.le_zero.mp enough⟩

theorem Idle.pending {amount : Data → ℕ} {takes which : Call → Bool} (idle : Idle ops s)
    (supply : Supply ops amount takes) (reached : Reaches (step ops) allowed (init data) trace s)
    (pending : (s.pc t).pending which = true) :
    ∃ call, which call = true ∧ takes call = true ∧ amount s.data = 0 := by
  rcases idle.threads (sound reached) t with outside | ⟨call, parked⟩
  · rw [outside] at pending
    cases pending
  · rw [parked] at pending
    exact ⟨call, pending, idle.starved supply reached parked⟩

/-- Where nobody can go on, calls that do not take have returned. -/
theorem Idle.nobody_pending {amount : Data → ℕ} {takes which : Call → Bool} (idle : Idle ops s)
    (supply : Supply ops amount takes) (reached : Reaches (step ops) allowed (init data) trace s)
    (other : ∀ call, takes call = true → which call = false) :
    headcount (Pc.pending which) s.pc = 0 := by
  refine headcount_eq_zero.mpr fun u => Bool.eq_false_iff.mpr fun pending => ?_
  obtain ⟨call, chosen, taking, _⟩ := idle.pending supply reached pending
  cases chosen.symm.trans (other call taking)

/-- If a call has not returned, there is nothing left to take. -/
theorem Idle.exhausted {amount : Data → ℕ} {takes which : Call → Bool} (idle : Idle ops s)
    (supply : Supply ops amount takes) (reached : Reaches (step ops) allowed (init data) trace s)
    (waiting : headcount (Pc.pending which) s.pc ≠ 0) : amount s.data = 0 := by
  obtain ⟨u, pending⟩ := headcount_pos.mp (Nat.pos_of_ne_zero waiting)
  obtain ⟨_, _, _, empty⟩ := idle.pending supply reached pending
  exact empty

theorem idle_of_threads (threads : ∀ u, s.pc u = .outside ∨ ∃ call, s.pc u = .parked call) :
    Idle ops s := by
  intro t op goesOn
  cases taken : step ops s (t, op) with
  | none => rfl
  | some after =>
      have source := (own_step taken).1
      rcases threads t with here | ⟨call, here⟩
      · rw [here] at source
        cases op with
        | invoke call => cases goesOn
        | _ => cases source
      · rw [here] at source
        cases op with
        | spurious call => cases goesOn
        | _ => cases source

def Attentive (Thread : Type) [Fintype Thread] [DecidableEq Thread]
    (ops : Operations Data Call Result) (data : Data) : Prop :=
  ∀ (trace : List (Label Thread Data Call Result)) (s : State Thread Data Call Result) t call,
    Reaches (step ops) unrestricted (init data) trace s → Idle ops s →
    s.pc t = .parked call → ops.waits call s.data = true

theorem calls_done (which : Call → Bool)
    (reached : Reaches (step ops) allowed (init data) trace s) :
    (calls trace).countP which =
      (sections trace).countP (fun entry => which entry.1) +
        headcount (Pc.pending which) s.pc := by
  induction reached with
  | start =>
      have nobody : headcount (Pc.pending which)
          (init data : State Thread Data Call Result).pc = 0 := headcount_eq_zero.mpr fun _ => rfl
      rw [nobody]
      rfl
  | next label _ _ taken ih =>
      obtain ⟨t, op⟩ := label
      have settled : Settled (Pc.pending which : Pc Call Result → Bool) := fun _ => rfl
      have moved := settled.moved taken
      simp only [calls, sections, filterMap_snoc, List.countP_append] at ih ⊢
      cases op with
      | act call found =>
          rw [Op.target, afterBody_pending] at moved
          simp only [invokeOf, sectionOf, Op.source, Pc.pending, Option.toList_none,
            Option.toList_some, List.countP_nil, List.countP_singleton, Bool.toNat_false] at moved ⊢
          cases counts : which call <;>
            simp only [counts, Bool.toNat_true, Bool.toNat_false, if_true, Bool.false_eq_true,
              if_false] at moved ⊢ <;>
            omega
      | invoke call =>
          simp only [invokeOf, sectionOf, Op.source, Op.target, Pc.pending, Option.toList_none,
            Option.toList_some, List.countP_nil, List.countP_singleton, Bool.toNat_false] at moved ⊢
          cases counts : which call <;>
            simp only [counts, Bool.toNat_true, Bool.toNat_false, if_true, Bool.false_eq_true,
              if_false] at moved ⊢ <;>
            omega
      | _ =>
          simp only [invokeOf, sectionOf, Op.source, Op.target, Pc.pending, Option.toList_none,
            List.countP_nil] at moved ⊢
          omega

end Progress
end ConcurrencyCourse.Monitor
