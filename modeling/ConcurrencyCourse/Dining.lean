import ConcurrencyCourse.LockFairness

/-!
Dining philosophers. Forks are mutexes; seat 0 takes its left fork first, every
other seat its right one. The strategy is a lock order in which fork 0 stands above
all the others, and those in the order of their indices. Where forks and threads are fair,
every philosopher eats again and again.
-/

namespace ConcurrencyCourse.Dining

open Interleaving LockOrder Fairness

variable {n : ℕ}

/-- Plate::Access begins, ends; `++meals_`; Think. -/
inductive Act (n : ℕ) where
  | access (plate : Fin n)
  | accessed (plate : Fin n)
  | eaten
  | think
  deriving DecidableEq

abbrev Statement (n : ℕ) := Op (Fin n) (Act n)

-- Table

def toRight (seat : Fin n) : Fin n :=
  ⟨(seat + 1) % n, Nat.mod_lt _ seat.pos⟩

def leftFork (seat : Fin n) : Fin n := seat

def rightFork (seat : Fin n) : Fin n := toRight seat

def accessPlate (seat : Fin n) : List (Statement n) :=
  [.act (.access seat), .act (.accessed seat)]

-- Philosopher

def acquireForks (seat : Fin n) : List (Statement n) :=
  if seat.val = 0 then [.lock (leftFork seat), .lock (rightFork seat)]
  else [.lock (rightFork seat), .lock (leftFork seat)]

def eat (seat : Fin n) : List (Statement n) :=
  accessPlate seat ++ accessPlate (toRight seat) ++ [.act .eaten]

def releaseForks (seat : Fin n) : List (Statement n) :=
  [.unlock (rightFork seat), .unlock (leftFork seat)]

def think : List (Statement n) :=
  [.act .think]

def eatThenThink (seat : Fin n) : List (Statement n) :=
  acquireForks seat ++ eat seat ++ releaseForks seat ++ think

def philosophers (n : ℕ) : Program (Fin n) (Fin n) (Act n) (Fin n → ℕ) where
  script := eatThenThink
  effect seat act meals :=
    match act with
    | .eaten => Function.update meals seat (meals seat + 1)
    | _ => meals

abbrev State (n : ℕ) := LockOrder.State (Fin n) (Fin n) (Act n) (Fin n → ℕ)

def start (n : ℕ) : State n := init fun _ => 0

def Eats (s : State n) (seat : Fin n) : Prop :=
  ∃ act rest, s.rest seat = .act act :: rest ∧ act ≠ .think

def Accesses (s : State n) (seat plate : Fin n) : Prop :=
  ∃ rest, s.rest seat = .act (.accessed plate) :: rest

/-- The order of the strategy: forks are taken in descending rank. -/
def rank (fork : Fin n) : ℕ :=
  if fork.val = 0 then n else fork

def needs (seat : Fin n) : Act n → List (Fin n)
  | .think => []
  | _ => [leftFork seat, rightFork seat]

theorem toRight_ne (big : 2 ≤ n) (seat : Fin n) : toRight seat ≠ seat := by
  intro same
  have wraps : (seat.val + 1) % n = seat := congrArg Fin.val same
  have below := seat.isLt
  by_cases last : seat.val + 1 = n
  · rw [last, Nat.mod_self] at wraps
    omega
  · rw [Nat.mod_eq_of_lt (by omega)] at wraps
    omega

theorem rank_first (big : 2 ≤ n) {seat : Fin n} (first : seat.val = 0) :
    rank (rightFork seat) < rank (leftFork seat) := by
  have right : (rightFork seat).val = 1 := by
    simp [rightFork, toRight, first, Nat.mod_eq_of_lt big]
  simp [rank, leftFork, right, first]
  omega

theorem rank_other {seat : Fin n} (other : seat.val ≠ 0) :
    rank (leftFork seat) < rank (rightFork seat) := by
  have below := seat.isLt
  by_cases last : seat.val + 1 = n
  · have right : (rightFork seat).val = 0 := by simp [rightFork, toRight, last]
    simp [rank, leftFork, right, other]
  · have right : (rightFork seat).val = seat.val + 1 :=
      Nat.mod_eq_of_lt (by omega)
    simp [rank, leftFork, right, other]

theorem eatThenThink_disciplined (big : 2 ≤ n) (seat : Fin n) :
    Disciplined rank (needs seat) [] (eatThenThink seat) := by
  have apart : rightFork seat ≠ leftFork seat := toRight_ne big seat
  by_cases first : seat.val = 0
  · have lower := rank_first big first
    simp [eatThenThink, acquireForks, eat, accessPlate, releaseForks, think, Disciplined, needs,
      first, lower, apart, apart.symm]
  · have lower := rank_other first
    simp [eatThenThink, acquireForks, eat, accessPlate, releaseForks, think, Disciplined, needs,
      first, lower, apart, apart.symm]

theorem accessed_mem {seat plate : Fin n}
    (inside : (.act (.accessed plate) : Statement n) ∈ eatThenThink seat) :
    plate = seat ∨ plate = toRight seat := by
  by_cases first : seat.val = 0 <;>
    simpa [eatThenThink, acquireForks, eat, accessPlate, releaseForks, think, first] using inside

section Runs
variable {s : State n} {seat : Fin n}

theorem ordered (big : 2 ≤ n) {trace : List (Label (Fin n))}
    (run : Reaches (step (philosophers n)) unrestricted (start n) trace s) :
    Ordered (philosophers n) rank needs s :=
  reaches_ordered (eatThenThink_disciplined big) run

theorem eats_with_forks (inv : Ordered (philosophers n) rank needs s) (eats : Eats s seat) :
    s.owner (leftFork seat) = some seat ∧ s.owner (rightFork seat) = some seat := by
  obtain ⟨act, rest, here, within⟩ := eats
  obtain ⟨_, follows⟩ := inv seat
  have both : needs seat act = [leftFork seat, rightFork seat] := by
    cases act with
    | think => exact absurd rfl within
    | _ => rfl
  exact ⟨follows.has here (by simp [both]), follows.has here (by simp [both])⟩

theorem accesses_own (inv : Ordered (philosophers n) rank needs s) {plate : Fin n}
    (accesses : Accesses s seat plate) :
    Eats s seat ∧ (plate = seat ∨ plate = toRight seat) := by
  obtain ⟨rest, here⟩ := accesses
  obtain ⟨_, follows⟩ := inv seat
  have part := follows.part
  rw [here] at part
  exact ⟨⟨_, rest, here, by simp⟩, accessed_mem (part.subset List.mem_cons_self)⟩

theorem accesses_with_fork (inv : Ordered (philosophers n) rank needs s) {plate : Fin n}
    (accesses : Accesses s seat plate) : s.owner plate = some seat := by
  obtain ⟨eats, own⟩ := accesses_own inv accesses
  obtain ⟨left, right⟩ := eats_with_forks inv eats
  rcases own with rfl | rfl
  · exact left
  · exact right

/-- The dining strategy is deadlock-free and keeps plates exclusive. -/
theorem dining_deadlock_free (big : 2 ≤ n) {trace : List (Label (Fin n))}
    (run : Reaches (step (philosophers n)) unrestricted (start n) trace s) :
    (∀ threads, ¬ s.Deadlocked threads) ∧
    (∀ p q, s.Waits p q → ∃ last, Relation.TransGen s.Waits p last ∧
      (∃ fork, s.owner fork = some last) ∧ (step (philosophers n) s (.next last)).isSome = true) ∧
    (∀ p, Eats s p → s.owner p = some p ∧ s.owner (toRight p) = some p) ∧
    (∀ p plate, Accesses s p plate → Eats s p ∧ (plate = p ∨ plate = toRight p)) ∧
    ∀ p q plate, Accesses s p plate → Accesses s q plate → p = q := by
  have inv := ordered big run
  refine ⟨inv.not_deadlocked, fun p q waits => inv.waits_for_going waits,
    fun p => eats_with_forks inv, fun p plate => accesses_own inv, fun p q plate one two => ?_⟩
  have owner := (accesses_with_fork inv one).symm.trans (accesses_with_fork inv two)
  exact Option.some.inj owner

end Runs

/-- At a table of three, two philosophers wait while the first one accesses its own plate,
and then the plate to its right. -/
theorem dining_deadlock_free_two_waiting :
    ∃ (early late : List (Label (Fin 3))) (s s' : State 3),
      run (step (philosophers 3)) (start 3) early = some s ∧ Accesses s 0 0 ∧
      (∃ p q r, s.Waits p r ∧ s.Waits q r ∧ p ≠ q) ∧ (∀ threads, ¬ s.Deadlocked threads) ∧
      run (step (philosophers 3)) (start 3) (early ++ late) = some s' ∧ Accesses s' 0 1 ∧
      ∀ q, Accesses s' q 1 → q = 0 := by
  have ran : run (step (philosophers 3)) (start 3)
      [.round 0, .round 1, .round 2, .next 0, .next 1, .next 0, .next 0] = some _ := rfl
  have on : run (step (philosophers 3)) (start 3)
      ([.round 0, .round 1, .round 2, .next 0, .next 1, .next 0, .next 0] ++ [.next 0, .next 0]) =
        some _ := rfl
  obtain ⟨deadlockFree, _⟩ := dining_deadlock_free (by decide) (run_free ran)
  obtain ⟨_, _, _, _, exclusive⟩ := dining_deadlock_free (by decide) (run_free on)
  exact ⟨_, _, _, _, ran, ⟨_, rfl⟩, ⟨1, 2, 0, ⟨1, _, rfl, rfl⟩, ⟨0, _, rfl, rfl⟩, by decide⟩,
    deadlockFree, on, ⟨_, rfl⟩, fun q accesses => exclusive q 0 1 accesses ⟨_, rfl⟩⟩

section Feast
variable {s after : State n} {label : Label (Fin n)} {seat : Fin n}

def finish (seat : Fin n) : List (Statement n) :=
  .act .eaten :: (releaseForks seat ++ think)

theorem finish_part (seat : Fin n) : finish seat <:+ eatThenThink seat :=
  ⟨acquireForks seat ++ (accessPlate seat ++ accessPlate (toRight seat)),
    by simp [finish, eatThenThink, eat]⟩

theorem meals_step (taken : step (philosophers n) s label = some after) :
    s.data seat ≤ after.data seat := by
  cases label with
  | round t =>
      simp only [step] at taken
      split at taken
      · cases taken
        exact le_rfl
      · cases taken
  | next t =>
      simp only [step] at taken
      split at taken
      · cases taken
      · rename_i op rest here
        cases op with
        | lock l | unlock l =>
            obtain ⟨_, rfl⟩ := guarded_eq_some.mp taken
            exact le_rfl
        | act act =>
            rw [← Option.some.inj taken]
            cases act with
            | eaten =>
                by_cases same : seat = t
                · subst same
                  simp [philosophers]
                · simp [philosophers, same]
            | _ => exact le_rfl

variable {e : Execution (step (philosophers n)) (start n)}

theorem meals_next (k : ℕ) : (e.state k).data seat ≤ (e.state (k + 1)).data seat := by
  cases here : e.label k with
  | none => rw [Execution.rests here]
  | some label => exact meals_step (Execution.takes here)

theorem eats_again (big : 2 ≤ n) (fair : e.StronglyFair turns) (seat : Fin n) (k : ℕ) :
    ∃ m, k ≤ m ∧ Eats (e.state m) seat ∧ (e.state k).data seat < (e.state (m + 1)).data seat := by
  obtain ⟨m, later, here, taken⟩ :=
    performs_again (eatThenThink_disciplined big) fair (finish_part seat) k
  refine ⟨m, later, ⟨_, _, here, by simp⟩, ?_⟩
  have moved := performed here taken
  have grown : (e.state k).data seat ≤ (e.state m).data seat :=
    monotone_nat_of_le_succ (f := fun k => (e.state k).data seat) meals_next later
  rw [← Option.some.inj moved]
  simpa [philosophers] using Nat.lt_succ_of_le grown

/-- Nobody starves: where every philosopher that could take a step again and again takes
one, each of them eats again and again, and any number of meals. -/
theorem nobody_starves (big : 2 ≤ n) (e : Execution (step (philosophers n)) (start n))
    (fair : e.StronglyFair turns) (seat : Fin n) :
    (∀ k, ∃ m, k ≤ m ∧ Eats (e.state m) seat) ∧ ∀ meals, ∃ m, meals ≤ (e.state m).data seat := by
  refine ⟨fun k => ?_, fun meals => ?_⟩
  · obtain ⟨m, later, eats, _⟩ := eats_again big fair seat k
    exact ⟨m, later, eats⟩
  · induction meals with
    | zero => exact ⟨0, Nat.zero_le _⟩
    | succ meals ih =>
        obtain ⟨k, enough⟩ := ih
        obtain ⟨m, _, _, more⟩ := eats_again big fair seat k
        exact ⟨m + 1, by omega⟩

def meal (seat : Fin n) : List (Label (Fin n)) :=
  .round seat :: (eatThenThink seat).map fun _ => .next seat

def fed (meals : ℕ) : State n :=
  { rest := fun _ => [], owner := fun _ => none, data := fun _ => meals }

theorem fed_again (meals : ℕ) :
    run (step (philosophers 2)) (fed meals) (meal 0 ++ meal 1) = some (fed (meals + 1)) := by
  have ran : run (step (philosophers 2)) (fed meals) (meal 0 ++ meal 1) = some _ := rfl
  rw [ran, fed, Option.some.injEq, State.mk.injEq]
  exact ⟨funext (Fin.forall_fin_two.mpr ⟨rfl, rfl⟩), funext (Fin.forall_fin_two.mpr ⟨rfl, rfl⟩),
    funext (Fin.forall_fin_two.mpr ⟨rfl, rfl⟩)⟩

/-- Two philosophers eat in turn, so no state comes again. -/
theorem nobody_starves_in_turn :
    ∃ e : Execution (step (philosophers 2)) (start 2), e.StronglyFair turns ∧
      ∀ seat meals, ∃ m, meals ≤ (e.state m).data seat := by
  let e : Execution (step (philosophers 2)) (start 2) :=
    Execution.repeats fed fed_again (Nat.succ_pos _)
  have fair : e.StronglyFair turns := by
    rintro seat n -
    have member : ∀ seat, Label.round seat ∈ meal (0 : Fin 2) ++ meal 1 :=
      Fin.forall_fin_two.mpr (by simp [meal])
    obtain ⟨m, later, here⟩ := Execution.repeats_label (member seat) n
    exact ⟨m, later, _, here, rfl⟩
  exact ⟨e, fair, fun seat => (nobody_starves le_rfl e fair seat).2⟩

end Feast

end ConcurrencyCourse.Dining
