import Mathlib.Algebra.BigOperators.Group.Finset.Basic
import Mathlib.Algebra.Order.BigOperators.Group.Finset
import Mathlib.Data.Fintype.Card

/-!
Counting the threads that stand at some class of program points, and the two
ways a condition variable or a futex moves threads that did not run: waking one
arbitrary sleeper and waking all of them. An invariant of an unbounded set of
threads becomes an equation between headcounts, and one step of one thread
changes each headcount by `headcount_update`.
-/

namespace ConcurrencyCourse.Headcount

variable {Thread Pc : Type*}

section Counting
variable [Fintype Thread]

def headcount (stands : Pc → Bool) (pc : Thread → Pc) : ℕ :=
  ∑ t, (stands (pc t)).toNat

theorem headcount_pos_of {stands : Pc → Bool} {pc : Thread → Pc} {t : Thread}
    (here : stands (pc t) = true) : 0 < headcount stands pc := by
  have one := Finset.single_le_sum (f := fun u => (stands (pc u)).toNat)
    (fun u _ => Nat.zero_le _) (Finset.mem_univ t)
  simp only [here, Bool.toNat_true] at one
  exact one

theorem headcount_eq_zero {stands : Pc → Bool} {pc : Thread → Pc} :
    headcount stands pc = 0 ↔ ∀ t, stands (pc t) = false := by
  simp [headcount, Finset.sum_eq_zero_iff]

theorem headcount_pos {stands : Pc → Bool} {pc : Thread → Pc} :
    0 < headcount stands pc ↔ ∃ t, stands (pc t) = true := by
  rw [Nat.pos_iff_ne_zero, Ne, headcount_eq_zero]
  simp

theorem headcount_le_card (stands : Pc → Bool) (pc : Thread → Pc) :
    headcount stands pc ≤ Fintype.card Thread := by
  calc headcount stands pc ≤ ∑ _t : Thread, 1 := Finset.sum_le_sum fun t _ => Bool.toNat_le _
    _ = Fintype.card Thread := by simp

theorem headcount_eq_card {stands : Pc → Bool} {pc : Thread → Pc} :
    headcount stands pc = Fintype.card Thread ↔ ∀ t, stands (pc t) = true := by
  constructor
  · intro full t
    by_contra away
    have fewer : headcount stands pc < ∑ _t : Thread, 1 := by
      apply Finset.sum_lt_sum (fun u _ => Bool.toNat_le _)
      exact ⟨t, Finset.mem_univ t, by simp [away]⟩
    simp [full] at fewer
  · intro all
    simp [headcount, all]

variable [DecidableEq Thread]

theorem sum_moved_le {before after : Thread → ℕ} {t : Thread}
    (others : ∀ u, u ≠ t → after u ≤ before u) :
    ∑ u, after u + before t ≤ ∑ u, before u + after t := by
  have elsewhere : ∑ u ∈ Finset.univ.erase t, after u ≤ ∑ u ∈ Finset.univ.erase t, before u :=
    Finset.sum_le_sum fun u member => others u (Finset.ne_of_mem_erase member)
  have now := Finset.add_sum_erase Finset.univ after (Finset.mem_univ t)
  have then' := Finset.add_sum_erase Finset.univ before (Finset.mem_univ t)
  omega

theorem sum_moved {before after : Thread → ℕ} {t : Thread}
    (others : ∀ u, u ≠ t → after u = before u) :
    ∑ u, after u + before t = ∑ u, before u + after t := by
  have less := sum_moved_le fun u other => (others u other).le
  have more := sum_moved_le fun u other => (others u other).ge
  omega

theorem headcount_moved {stands : Pc → Bool} {pc after : Thread → Pc} {t : Thread}
    (others : ∀ u, u ≠ t → stands (after u) = stands (pc u)) :
    headcount stands after + (stands (pc t)).toNat =
      headcount stands pc + (stands (after t)).toNat :=
  sum_moved fun u other => congrArg Bool.toNat (others u other)

theorem headcount_update (stands : Pc → Bool) (pc : Thread → Pc) (t : Thread) (next : Pc) :
    headcount stands (Function.update pc t next) + (stands (pc t)).toNat =
      headcount stands pc + (stands next).toNat := by
  have moved : headcount stands (Function.update pc t next) + (stands (pc t)).toNat =
      headcount stands pc + (stands (Function.update pc t next t)).toNat :=
    headcount_moved fun u other => by rw [Function.update_of_ne other]
  simpa using moved

theorem headcount_still {stands : Pc → Bool} {pc : Thread → Pc} {t : Thread} {next : Pc}
    (same : stands next = stands (pc t)) :
    headcount stands (Function.update pc t next) = headcount stands pc := by
  have moved := headcount_update stands pc t next
  rw [same] at moved
  omega

theorem headcount_enter {stands : Pc → Bool} {pc : Thread → Pc} {t : Thread} {next : Pc}
    (out : stands (pc t) = false) (into : stands next = true) :
    headcount stands (Function.update pc t next) = headcount stands pc + 1 := by
  have moved := headcount_update stands pc t next
  simp only [out, into, Bool.toNat_false, Bool.toNat_true] at moved
  omega

theorem headcount_leave {stands : Pc → Bool} {pc : Thread → Pc} {t : Thread} {next : Pc}
    (inside : stands (pc t) = true) (out : stands next = false) :
    headcount stands (Function.update pc t next) + 1 = headcount stands pc := by
  have moved := headcount_update stands pc t next
  simp only [inside, out, Bool.toNat_false, Bool.toNat_true] at moved
  omega

theorem headcount_unique {stands : Pc → Bool} {pc : Thread → Pc}
    (few : headcount stands pc ≤ 1) {t u : Thread} (first : stands (pc t) = true)
    (second : stands (pc u) = true) : t = u := by
  by_contra different
  -- Two of them would be counted twice.
  have pair := Finset.sum_le_sum_of_subset (f := fun v => (stands (pc v)).toNat)
    (Finset.subset_univ {t, u})
  rw [Finset.sum_pair different] at pair
  simp only [first, second, Bool.toNat_true] at pair
  unfold headcount at few
  omega

end Counting

/-! A `size_t` that counts, away from its two ends. -/

theorem sub_one_toNat {counter : UInt64} (positive : counter ≠ 0) :
    (counter - 1).toNat + 1 = counter.toNat := by
  have some' : 1 ≤ counter := UInt64.pos_iff_ne_zero.mpr positive
  rw [UInt64.toNat_sub_of_le _ _ some']
  exact Nat.sub_add_cancel some'

theorem add_one_toNat {counter : UInt64} (fits : counter.toNat + 1 < 2 ^ 64) :
    (counter + 1).toNat = counter.toNat + 1 := by
  rw [UInt64.toNat_add, UInt64.toNat_one]
  exact Nat.mod_eq_of_lt fits

/-- What a notify that wakes one arbitrary sleeper may do: wake any thread that
sleeps, or nobody when nobody sleeps. -/
def Wakes (asleep : Pc → Bool) (pc : Thread → Pc) : Option Thread → Prop
  | none => ∀ u, asleep (pc u) = false
  | some u => asleep (pc u) = true

instance [Fintype Thread] (asleep : Pc → Bool) (pc : Thread → Pc) (woken : Option Thread) :
    Decidable (Wakes asleep pc woken) :=
  match woken with
  | none => inferInstanceAs (Decidable (∀ u, asleep (pc u) = false))
  | some u => inferInstanceAs (Decidable (asleep (pc u) = true))

theorem wakes_exists (asleep : Pc → Bool) (pc : Thread → Pc) :
    ∃ woken, Wakes asleep pc woken := by
  by_cases someone : ∃ u, asleep (pc u) = true
  · rcases someone with ⟨u, here⟩
    exact ⟨some u, here⟩
  · exact ⟨none, fun u => by simpa using not_exists.mp someone u⟩

def wakeOne [DecidableEq Thread] (resume : Pc) (pc : Thread → Pc) : Option Thread → Thread → Pc
  | none => pc
  | some u => Function.update pc u resume

def wakeAll (asleep : Pc → Bool) (resume : Pc) (pc : Thread → Pc) : Thread → Pc :=
  fun u => if asleep (pc u) then resume else pc u

theorem wakeOne_awake [DecidableEq Thread] {asleep : Pc → Bool} {pc : Thread → Pc}
    {woken : Option Thread} {t : Thread} (resume : Pc) (wakes : Wakes asleep pc woken)
    (awake : asleep (pc t) = false) : wakeOne resume pc woken t = pc t := by
  cases woken with
  | none => rfl
  | some u =>
      have different : t ≠ u := by
        rintro rfl
        simp only [Wakes, awake] at wakes
        cases wakes
      exact Function.update_of_ne different resume pc

theorem wakeOne_cases [DecidableEq Thread] {asleep : Pc → Bool} {pc : Thread → Pc}
    {woken : Option Thread} (resume : Pc) (wakes : Wakes asleep pc woken) (u : Thread) :
    wakeOne resume pc woken u = pc u ∨
      asleep (pc u) = true ∧ wakeOne resume pc woken u = resume := by
  cases woken with
  | none => exact Or.inl rfl
  | some v =>
      by_cases self : u = v
      · subst self
        exact Or.inr ⟨wakes, by simp [wakeOne]⟩
      · exact Or.inl (by simp [wakeOne, self])

theorem wakeAll_cases (asleep : Pc → Bool) (resume : Pc) (pc : Thread → Pc) (u : Thread) :
    wakeAll asleep resume pc u = pc u ∨
      asleep (pc u) = true ∧ wakeAll asleep resume pc u = resume := by
  cases here : asleep (pc u) with
  | true => exact Or.inr ⟨rfl, by simp [wakeAll, here]⟩
  | false => exact Or.inl (by simp [wakeAll, here])

theorem wakeAll_awake {asleep : Pc → Bool} {pc : Thread → Pc} {resume : Pc}
    (awake : ∀ u, asleep (pc u) = false) : wakeAll asleep resume pc = pc := by
  funext u
  simp [wakeAll, awake u]

/-- Waking a sleeper leaves alone every class that does not tell the sleeping
point from the point of resumption. -/
theorem headcount_wakeOne [Fintype Thread] [DecidableEq Thread] {stands asleep : Pc → Bool}
    {pc : Thread → Pc} {woken : Option Thread} {resume : Pc} (wakes : Wakes asleep pc woken)
    (alike : ∀ p, asleep p = true → stands resume = stands p) :
    headcount stands (wakeOne resume pc woken) = headcount stands pc := by
  cases woken with
  | none => rfl
  | some u => exact headcount_still (alike _ wakes)

end ConcurrencyCourse.Headcount
