import ConcurrencyCourse.CyclicBarrier
import Mathlib.Algebra.BigOperators.Group.Finset.Piecewise

/-!
Every round of the barrier is completed. A call of Arrive costs at most fifteen steps, and a
spurious wake-up four more, so participants that call Arrive a given number of times come to
an end of their steps, and then all their calls have returned.
-/

namespace ConcurrencyCourse.CyclicBarrier

open Interleaving Headcount

variable {Thread : Type}

def Point.left : Point → Bool → ℕ
  | .lock, _ => 7
  | .relock, false => 6
  | .count, _ => 6
  | .setFlag, _ => 5
  | .test, false => 5
  | .notify, _ | .wait, _ => 4
  | .parked, _ => 3
  | .relock, true => 3
  | .test, true => 2
  | .unlock, _ => 1

def Phase.later : Phase → ℕ
  | .derived => 7
  | .departed => 0

def Pc.left (flag : Bool) : Pc → ℕ
  | .outside => 0
  | .inside which point => point.left (flag == which.opens) + which.later

/-- A call of Arrive is charged with all its steps, and a spurious wake-up with the steps
back to sleep. -/
def charge : Label Thread → ℕ
  | (_, .call) => 15
  | (_, .within _ .parked) => 4
  | _ => 0

def Op.isSpurious : Op → Bool
  | .within _ .parked => true
  | _ => false

def spurious (trace : List (Label Thread)) : ℕ := trace.countP fun label => label.2.isSpurious

section Steps
variable [Fintype Thread] {participants : UInt64} {s after : State Thread} {t u : Thread} {op : Op}
  {which : Phase} {point : Point} {trace : List (Label Thread)}

theorem Inv.unset (inv : Inv participants s) (here : s.pc t = .inside which point)
    (early : point.fits true = false) : (s.isOpenFlag == which.opens) = false := by
  have fits := inv.fits t
  rw [here] at fits
  cases isSet : s.isOpenFlag == which.opens with
  | false => rfl
  | true =>
      rw [Pc.fits, isSet, early] at fits
      cases fits

variable [DecidableEq Thread]

theorem left_other (inv : Inv participants s) (members : Fintype.card Thread = participants.toNat)
    (taken : step participants s (t, op) = some after) (other : u ≠ t) :
    (after.pc u).left after.isOpenFlag ≤ (s.pc u).left s.isOpenFlag := by
  cases op with
  | call =>
      obtain ⟨_, rfl⟩ := guarded_eq_some.mp taken
      simp [other]
  | within phase point =>
      have here := stands_there taken
      rw [within_step] at taken
      cases point with
      | setFlag =>
          -- Everybody else has tested the flag of this phase and not found it set.
          have unset := inv.unset here rfl
          have behind := inv.gathered members here other
          obtain ⟨_, rfl⟩ := guarded_eq_some.mp taken
          rcases behind with asleep | awake
          · simp [other, asleep, Pc.left, Point.left]
          · simp [other, awake, Pc.left, unset, Point.left]
      | notify =>
          have fits := inv.fits t
          rw [here] at fits
          have isSet : (s.isOpenFlag == phase.opens) = true := fits
          obtain ⟨_, rfl⟩ := guarded_eq_some.mp taken
          simp only [Function.update_of_ne other]
          rcases wakeAll_cases (Pc.parkedIn phase) (.inside phase .relock) s.pc u with
            still | ⟨asleep, awake⟩
          · rw [still]
          · rw [awake, of_decide_eq_true asleep, Pc.left, Pc.left, isSet]
            exact le_refl _
      | _ =>
          obtain ⟨_, rfl⟩ := guarded_eq_some.mp taken
          simp [other]

theorem left_own (inv : Inv participants s) (taken : step participants s (t, op) = some after) :
    (after.pc t).left after.isOpenFlag + 1 ≤ (s.pc t).left s.isOpenFlag + charge (t, op) := by
  cases op with
  | call =>
      obtain ⟨here, rfl⟩ := guarded_eq_some.mp taken
      simp [here, Pc.left, Point.left, Phase.later, charge]
  | within which point =>
      have unset := fun early => inv.unset (stands_there taken) early
      rw [within_step] at taken
      cases point with
      | lock =>
          obtain ⟨⟨here, _⟩, rfl⟩ := guarded_eq_some.mp taken
          simp only [here, Function.update_self, Pc.left, Point.left]
          omega
      | count =>
          obtain ⟨here, rfl⟩ := guarded_eq_some.mp taken
          have unset := unset rfl
          by_cases last : which.tick s.counter = which.last participants
          · simp only [here, last, if_true, Function.update_self, Pc.left, Point.left]
            omega
          · simp only [here, last, if_false, Function.update_self, Pc.left, unset, Point.left]
            omega
      | test =>
          obtain ⟨here, rfl⟩ := guarded_eq_some.mp taken
          by_cases isSet : s.isOpenFlag = which.opens
          · simp only [here, isSet, if_true, Function.update_self, Pc.left, beq_self_eq_true,
              Point.left]
            omega
          · have unset : (s.isOpenFlag == which.opens) = false := by simpa using isSet
            simp only [here, isSet, if_false, Function.update_self, Pc.left, unset, Point.left]
            omega
      | relock =>
          obtain ⟨⟨here, _⟩, rfl⟩ := guarded_eq_some.mp taken
          simp only [here, Function.update_self, Pc.left]
          cases s.isOpenFlag == which.opens <;> simp only [Point.left] <;> omega
      | parked =>
          obtain ⟨here, rfl⟩ := guarded_eq_some.mp taken
          simp only [here, Function.update_self, Pc.left, charge]
          cases s.isOpenFlag == which.opens <;> simp only [Point.left] <;> omega
      | unlock =>
          obtain ⟨here, rfl⟩ := guarded_eq_some.mp taken
          cases which with
          | derived => simp [here, Phase.next, Pc.left, Point.left, Phase.later]
          | departed => simp [here, Phase.next, Pc.left, Point.left, Phase.later]
      | setFlag | notify | wait =>
          obtain ⟨here, rfl⟩ := guarded_eq_some.mp taken
          simp only [here, Function.update_self, Pc.left, Point.left]
          omega

theorem charges_started (trace : List (Label Thread)) :
    (trace.map charge).sum = 15 * ∑ u, started u trace + 4 * spurious trace := by
  induction trace with
  | nil => simp [started, spurious]
  | cons label rest ih =>
      obtain ⟨t, op⟩ := label
      have calls : ∑ u, started u ((t, op) :: rest) =
          ∑ u, started u rest + if op = .call then 1 else 0 := by
        simp only [started, List.count_cons, Finset.sum_add_distrib]
        congr 1
        by_cases calls : op = .call <;> simp [calls, Finset.sum_ite_eq]
      have wakes : spurious ((t, op) :: rest) = spurious rest + op.isSpurious.toNat := by
        cases spontaneous : op.isSpurious <;> simp [spurious, spontaneous]
      have charged : charge (t, op) = 15 * (if op = .call then 1 else 0) +
          4 * op.isSpurious.toNat := by
        cases op with
        | call => rfl
        | within which point => cases point <;> rfl
      rw [List.map_cons, List.sum_cons, ih, calls, wakes, charged]
      omega

theorem stuck_returned (members : Fintype.card Thread = participants.toNat)
    (positive : 0 < participants.toNat)
    (reached : Reaches (step participants) unrestricted init trace s) {rounds : ℕ}
    (few : ∀ t, started t trace ≤ rounds)
    (stuck : ∀ t op, op.isSpurious = false → (op = .call → started t trace < rounds) →
      step participants s (t, op) = none) (t : Thread) : returned t trace = rounds := by
  have inv := reaches_inv members positive reached
  have asleep := inv.all_asleep fun t inside => by
    rintro ⟨op, prompt, able⟩
    cases op with
    | call =>
        rw [guarded_isSome.mp able] at inside
        cases inside
    | within which point =>
        have awake : (Op.within which point).isSpurious = false := by
          cases point with
          | parked => exact absurd rfl (prompt which)
          | _ => rfl
        rw [stuck t _ awake nofun] at able
        cases able
  have called (u : Thread) (outside : s.pc u = .outside) : started u trace = rounds := by
    by_contra fewer
    have able : (step participants s (u, .call)).isSome = true := guarded_isSome.mpr outside
    rw [stuck u .call rfl fun _ => lt_of_le_of_ne (few u) fewer] at able
    cases able
  have flag := inv.asleep_derived asleep
  obtain ⟨u, missing⟩ := inv.someone_missing members asleep flag
  obtain ⟨round, count⟩ := CyclicBarrier.rounds members positive reached
  have behind : rounds = round := by
    rw [← called u missing, count u, missing, flag]
    rfl
  have outside : s.pc t = .outside := by
    rcases asleep t with outside | ⟨which, parked⟩
    · exact outside
    · -- A sleeper has started one round more than the thread that is missing.
      have unset := inv.asleep_closed (inv.asleep_free asleep) parked
      have ahead := count t
      have within' := few t
      cases which with
      | derived =>
          rw [parked] at ahead
          simp only [Pc.ahead, Bool.toNat_true] at ahead
          omega
      | departed => exact absurd flag unset
  have whole := started_returned reached t
  rw [called t outside, outside] at whole
  simpa [Pc.isInside] using whole.symm

/-- Every round is completed. However the participants interleave, `rounds` calls of Arrive
by each of them take at most fifteen steps a call and four steps for each spurious wake-up,
and where nobody can go on all of these calls have returned. -/
theorem arrivals_complete (members : Fintype.card Thread = participants.toNat)
    (positive : 0 < participants.toNat)
    (reached : Reaches (step participants) unrestricted init trace s) {rounds : ℕ}
    (few : ∀ t, started t trace ≤ rounds) :
    trace.length ≤ 15 * (participants.toNat * rounds) + 4 * spurious trace ∧
      ((∃ t op, op.isSpurious = false ∧ (op = .call → started t trace < rounds) ∧
          (step participants s (t, op)).isSome = true) ∨
        ∀ t, returned t trace = rounds) := by
  constructor
  · have paid := reached.length_le_charges (fun s => ∑ u, (s.pc u).left s.isOpenFlag) charge
      (by simp [init, Pc.left]) fun trace s label after reached _ taken => by
        obtain ⟨t, op⟩ := label
        have inv := reaches_inv members positive reached
        have moved := sum_moved_le fun u other => left_other inv members taken other
        have own := left_own inv taken
        omega
    have calls : ∑ u, started u trace ≤ participants.toNat * rounds := by
      calc ∑ u, started u trace ≤ ∑ _u : Thread, rounds := Finset.sum_le_sum fun u _ => few u
        _ = participants.toNat * rounds := by simp [members]
    rw [charges_started] at paid
    omega
  · by_cases goes : ∃ t op, op.isSpurious = false ∧ (op = .call → started t trace < rounds) ∧
        (step participants s (t, op)).isSome = true
    · exact .inl goes
    · refine .inr (stuck_returned members positive reached few fun t op prompt may => ?_)
      by_contra able
      exact goes ⟨t, op, prompt, may, Option.isSome_iff_ne_none.mpr able⟩

end Steps

/-- One participant sleeps in both phases of its only round, in the first one twice. -/
theorem arrivals_complete_two :
    ∃ trace, ∃ s : State Bool, run (step 2) init trace = some s ∧ trace.length ≤ 34 ∧
      ((∃ t op, op.isSpurious = false ∧ (op = .call → started t trace < 1) ∧
          (step 2 s (t, op)).isSome = true) ∨ ∀ t, returned t trace = 1) := by
  let trace : List (Label Bool) :=
    [(true, .call), (true, .within .derived .lock), (true, .within .derived .count),
      (true, .within .derived .test), (true, .within .derived .wait),
      (true, .within .derived .parked),
      (true, .within .derived .relock), (true, .within .derived .test),
      (true, .within .derived .wait), (false, .call),
      (false, .within .derived .lock), (false, .within .derived .count),
      (false, .within .derived .setFlag), (false, .within .derived .notify),
      (false, .within .derived .unlock), (false, .within .departed .lock),
      (false, .within .departed .count), (false, .within .departed .test),
      (false, .within .departed .wait), (true, .within .derived .relock),
      (true, .within .derived .test), (true, .within .derived .unlock),
      (true, .within .departed .lock), (true, .within .departed .count),
      (true, .within .departed .setFlag), (true, .within .departed .notify),
      (true, .within .departed .unlock), (false, .within .departed .relock),
      (false, .within .departed .test), (false, .within .departed .unlock)]
  have ran : run (step 2) (init : State Bool) trace = some _ := rfl
  have once : ∀ t, started t trace ≤ 1 := by decide
  exact ⟨trace, _, ran, arrivals_complete (by decide) (by decide) (run_free ran) once⟩

end ConcurrencyCourse.CyclicBarrier
