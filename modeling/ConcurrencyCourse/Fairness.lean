import ConcurrencyCourse.Interleaving
import Mathlib.Order.WellFounded
import Mathlib.Data.Nat.Basic

/-!
Infinite executions of a step function. A position of an execution either takes a
step or rests, so an execution that has come to its end is one that rests forever.
Fairness is weak and by tasks: `owed` says which labels count as a step of a task, and a
task that could take such a step from some time on takes one. What has to happen is
proved by a measure that every step of a helpful task brings down; what need not happen
is shown by an execution around a cycle. Under strong fairness it is enough that a task
could take a step again and again.
-/

namespace ConcurrencyCourse.Fairness

open Interleaving

variable {State Label Task : Type*}

structure Execution (step : State → Label → Option State) (init : State) where
  state : ℕ → State
  label : ℕ → Option Label
  begins : state 0 = init
  moves : ∀ n, ((label n).elim (some (state n)) fun l => step (state n) l) = some (state (n + 1))

section Executions
variable {step : State → Label → Option State} {init : State} (e : Execution step init)

def Ready (step : State → Label → Option State) (owed : Task → State → Label → Prop)
    (task : Task) (s : State) : Prop :=
  ∃ label, owed task s label ∧ (step s label).isSome = true

def Execution.Acts (owed : Task → State → Label → Prop) (task : Task) (n : ℕ) : Prop :=
  ∃ label, e.label n = some label ∧ owed task (e.state n) label

/-- Weak fairness for every task. -/
def Execution.Fair (owed : Task → State → Label → Prop) : Prop :=
  ∀ task n, (∀ m, n ≤ m → Ready step owed task (e.state m)) → ∃ m, n ≤ m ∧ e.Acts owed task m

def Execution.LeadsTo (waits goal : State → Prop) : Prop :=
  ∀ n, waits (e.state n) → ∃ m, n ≤ m ∧ goal (e.state m)

variable {e}

theorem Execution.rests {n : ℕ} (none' : e.label n = none) : e.state (n + 1) = e.state n := by
  have moved := e.moves n
  rw [none'] at moved
  exact (Option.some.inj moved).symm

theorem Execution.takes {n : ℕ} {label : Label} (some' : e.label n = some label) :
    step (e.state n) label = some (e.state (n + 1)) := by
  have moved := e.moves n
  rwa [some'] at moved

theorem Execution.reaches (e : Execution step init) (n : ℕ) :
    ∃ trace, Reaches step unrestricted init trace (e.state n) := by
  induction n with
  | zero =>
      rw [e.begins]
      exact ⟨[], .start⟩
  | succ n ih =>
      obtain ⟨trace, reached⟩ := ih
      cases here : e.label n with
      | none => exact ⟨trace, Execution.rests here ▸ reached⟩
      | some label => exact ⟨trace ++ [label], .next label reached trivial (Execution.takes here)⟩

theorem Execution.LeadsTo.through {waits middle goal : State → Prop}
    (first : e.LeadsTo waits middle) (second : e.LeadsTo middle goal) : e.LeadsTo waits goal := by
  intro n waiting
  obtain ⟨m, later, there⟩ := first n waiting
  obtain ⟨k, last, done⟩ := second m there
  exact ⟨k, later.trans last, done⟩

theorem Execution.LeadsTo.either {waits waits' goal : State → Prop} (first : e.LeadsTo waits goal)
    (second : e.LeadsTo waits' goal) : e.LeadsTo (fun s => waits s ∨ waits' s) goal :=
  fun n waiting => waiting.elim (first n) (second n)

theorem Execution.LeadsTo.arrived {waits goal : State → Prop} (already : ∀ s, waits s → goal s) :
    e.LeadsTo waits goal :=
  fun n waiting => ⟨n, le_rfl, already _ waiting⟩

/-- While a state waits, some task helps; the task is ready, every step reaches the goal
or keeps waiting with a measure that does not grow, and while the measure stands still the
same task goes on helping and has not acted. -/
structure Measure {α : Type*} [LT α] (step : State → Label → Option State)
    (owed : Task → State → Label → Prop) (waits goal : State → Prop) (measure : State → α)
    (helps : Task → State → Prop) : Prop where
  someone : ∀ s, waits s → ∃ task, helps task s
  ready : ∀ s task, waits s → helps task s → Ready step owed task s
  stays : ∀ s task label after, waits s → helps task s → step s label = some after →
    goal after ∨ waits after ∧ (measure after < measure s ∨
      measure after = measure s ∧ helps task after ∧ ¬ owed task s label)

variable {α : Type*} [Preorder α] {owed : Task → State → Label → Prop} {waits goal : State → Prop}
  {measure : State → α} {helps : Task → State → Prop}

theorem Measure.so_far (rule : Measure step owed waits goal measure helps) {n : ℕ} {task : Task}
    (waiting : waits (e.state n)) (helping : helps task (e.state n)) (k : ℕ) :
    (∃ m, n ≤ m ∧ goal (e.state m)) ∨
      (∃ m, n ≤ m ∧ waits (e.state m) ∧ measure (e.state m) < measure (e.state n)) ∨
      (waits (e.state (n + k)) ∧ helps task (e.state (n + k)) ∧
        measure (e.state (n + k)) = measure (e.state n)) := by
  induction k with
  | zero => exact .inr (.inr ⟨waiting, helping, rfl⟩)
  | succ k ih =>
      rcases ih with reached | lower | ⟨still, same, level⟩
      · exact .inl reached
      · exact .inr (.inl lower)
      · cases here : e.label (n + k) with
        | none =>
            have next := Execution.rests here
            exact .inr (.inr ⟨next ▸ still, next ▸ same, next ▸ level⟩)
        | some label =>
            rcases rule.stays _ task label _ still same (Execution.takes here) with
              done | ⟨again, down | ⟨equal, helping', -⟩⟩
            · exact .inl ⟨n + k + 1, by omega, done⟩
            · exact .inr (.inl ⟨n + k + 1, by omega, again, level ▸ down⟩)
            · exact .inr (.inr ⟨again, helping', equal.trans level⟩)

theorem Measure.leadsTo [WellFoundedLT α] (rule : Measure step owed waits goal measure helps)
    (fair : e.Fair owed) : e.LeadsTo waits goal := by
  intro n
  -- The induction is on the measure at the position from which the execution is watched.
  induction level : measure (e.state n) using WellFoundedLT.induction generalizing n with
  | ind level' ih =>
      intro waiting
      obtain ⟨task, helping⟩ := rule.someone _ waiting
      by_cases reached : ∃ m, n ≤ m ∧ goal (e.state m)
      · exact reached
      by_cases lower : ∃ m, n ≤ m ∧ waits (e.state m) ∧ measure (e.state m) < measure (e.state n)
      · obtain ⟨m, later, still, down⟩ := lower
        obtain ⟨k, last, done⟩ := ih _ (level ▸ down) m rfl still
        exact ⟨k, later.trans last, done⟩
      -- Otherwise the task helps forever, so it acts, which changes the measure or ends it.
      have stuck : ∀ m, n ≤ m → waits (e.state m) ∧ helps task (e.state m) ∧
          measure (e.state m) = measure (e.state n) := by
        intro m later
        obtain ⟨k, rfl⟩ := Nat.exists_eq_add_of_le later
        exact ((rule.so_far waiting helping k).resolve_left reached).resolve_left lower
      obtain ⟨m, later, label, here, mine⟩ := fair task n fun m later =>
        rule.ready _ task (stuck m later).1 (stuck m later).2.1
      have next := stuck (m + 1) (by omega)
      rcases rule.stays _ task label _ (stuck m later).1 (stuck m later).2.1
          (Execution.takes here) with done | ⟨again, down | ⟨-, -, other⟩⟩
      · exact absurd ⟨m + 1, by omega, done⟩ reached
      · rw [(stuck m later).2.2] at down
        exact absurd ⟨m + 1, by omega, again, down⟩ lower
      · exact absurd mine other

theorem Execution.leadsTo_by (fair : e.Fair owed) (task : Task)
    (ready : ∀ s, waits s → Ready step owed task s)
    (stays : ∀ s label after, waits s → step s label = some after →
      goal after ∨ waits after ∧ ¬ owed task s label) : e.LeadsTo waits goal := by
  have rule : Measure step owed waits goal (fun _ => (0 : ℕ)) fun task' _ => task' = task := by
    refine ⟨fun _ _ => ⟨task, rfl⟩, ?_, ?_⟩
    · rintro s _ waiting rfl
      exact ready s waiting
    · rintro s _ label after waiting rfl taken
      rcases stays s label after waiting taken with done | ⟨again, other⟩
      · exact .inl done
      · exact .inr ⟨again, .inr ⟨rfl, rfl, other⟩⟩
  exact rule.leadsTo fair

def Execution.StronglyFair (e : Execution step init) (owed : Task → State → Label → Prop) : Prop :=
  ∀ task n, (∀ m, n ≤ m → ∃ k, m ≤ k ∧ Ready step owed task (e.state k)) →
    ∃ m, n ≤ m ∧ e.Acts owed task m

/-- The rule of strong fairness: a task that waits until it acts, and that could act again
and again while it waits, acts. -/
theorem Execution.StronglyFair.acts (fair : e.StronglyFair owed) (task : Task)
    (waits : State → Prop)
    (recurs : ∀ n, ∃ m, n ≤ m ∧ (waits (e.state m) → Ready step owed task (e.state m)))
    (stays : ∀ s label after, waits s → step s label = some after → ¬ owed task s label →
      waits after) {n : ℕ} (waiting : waits (e.state n)) :
    ∃ m, n ≤ m ∧ waits (e.state m) ∧ e.Acts owed task m := by
  by_contra never
  push Not at never
  have still (k : ℕ) : waits (e.state (n + k)) := by
    induction k with
    | zero => exact waiting
    | succ k ih =>
        cases here : e.label (n + k) with
        | none => exact (Execution.rests here).symm ▸ ih
        | some label =>
            exact stays _ label _ ih (Execution.takes here) fun owes =>
              never (n + k) (Nat.le_add_right n k) ih ⟨label, here, owes⟩
  have later {m : ℕ} (after : n ≤ m) : waits (e.state m) := by
    obtain ⟨k, rfl⟩ := Nat.exists_eq_add_of_le after
    exact still k
  obtain ⟨m, after, acts⟩ := fair task n fun m after => by
    obtain ⟨k, on, ready⟩ := recurs m
    exact ⟨k, on, ready (later (after.trans on))⟩
  exact never m after (later after) acts

end Executions

/-! An execution that repeats the labels of a loop, and one around a cycle. -/
section Cycles
variable {step : State → Label → Option State}

def along (step : State → Label → Option State) (s : State) (trace : List Label) (k : ℕ) : State :=
  (run step s (trace.take k)).getD s

variable {s after : State} {loop : List Label}

theorem along_next (once : run step s loop = some after) {k : ℕ} (short : k < loop.length) :
    run step s (loop.take k) = some (along step s loop k) ∧
      step (along step s loop k) loop[k] = some (along step s loop (k + 1)) := by
  have whole : loop.take k ++ loop[k] :: loop.drop (k + 1) = loop := by simp
  have reached : Reaches step unrestricted s (loop.take k ++ loop[k] :: loop.drop (k + 1))
      after := by
    rw [whole]
    exact run_free once
  obtain ⟨before, next, first, -, taken, -⟩ := reached.around
  have second : run step s (loop.take (k + 1)) = some next := by
    rw [List.take_add_one, List.getElem?_eq_getElem short]
    exact (first.next loop[k] trivial taken).runs
  have here : along step s loop k = before := by simp [along, first.runs]
  have there : along step s loop (k + 1) = next := by simp [along, second]
  rw [here, there]
  exact ⟨first.runs, taken⟩

theorem along_length (once : run step s loop = some after) :
    along step s loop loop.length = after := by
  simp [along, once]

theorem along_start : along step s loop 0 = s := by
  simp [along, run]

variable {rounds : ℕ → State}

theorem along_turns (around : ∀ k, run step (rounds k) loop = some (rounds (k + 1)))
    (positive : 0 < loop.length) (n : ℕ) :
    (loop[n % loop.length]?.elim
      (some (along step (rounds (n / loop.length)) loop (n % loop.length)))
      fun l => step (along step (rounds (n / loop.length)) loop (n % loop.length)) l) =
      some (along step (rounds ((n + 1) / loop.length)) loop ((n + 1) % loop.length)) := by
  have short := Nat.mod_lt n positive
  have whole := Nat.div_add_mod n loop.length
  rw [List.getElem?_eq_getElem short, Option.elim_some, (along_next (around _) short).2]
  by_cases last : n % loop.length + 1 = loop.length
  · have back : (n + 1) % loop.length = 0 := by
      rw [← Nat.mod_add_mod, last, Nat.mod_self]
    have next : (n + 1) / loop.length = n / loop.length + 1 := by
      have full : n + 1 = loop.length * (n / loop.length + 1) := by
        rw [Nat.mul_succ]
        omega
      conv_lhs => rw [full]
      exact Nat.mul_div_cancel_left _ positive
    rw [last, along_length (around _), back, along_start, next]
  · have on : (n + 1) % loop.length = n % loop.length + 1 := by
      rw [← Nat.mod_add_mod, Nat.mod_eq_of_lt (by omega)]
    have same : (n + 1) / loop.length = n / loop.length := by
      have inside : n + 1 = n % loop.length + 1 + loop.length * (n / loop.length) := by omega
      conv_lhs => rw [inside]
      rw [Nat.add_mul_div_left _ _ positive, Nat.div_eq_of_lt (by omega), Nat.zero_add]
    rw [on, same]

theorem along_begins : along step (rounds (0 / loop.length)) loop (0 % loop.length) = rounds 0 := by
  rw [Nat.zero_div, Nat.zero_mod, along_start]

def Execution.repeats (rounds : ℕ → State)
    (around : ∀ k, run step (rounds k) loop = some (rounds (k + 1)))
    (positive : 0 < loop.length) : Execution step (rounds 0) where
  state n := along step (rounds (n / loop.length)) loop (n % loop.length)
  label n := loop[n % loop.length]?
  begins := along_begins
  moves := along_turns around positive

theorem Execution.repeats_label
    {around : ∀ k, run step (rounds k) loop = some (rounds (k + 1))}
    {positive : 0 < loop.length} {label : Label} (member : label ∈ loop) (n : ℕ) :
    ∃ m, n ≤ m ∧ (Execution.repeats rounds around positive).label m = some label := by
  obtain ⟨k, short, rfl⟩ := List.mem_iff_getElem.mp member
  refine ⟨k + loop.length * n, ?_, ?_⟩
  · have enough : n ≤ loop.length * n := Nat.le_mul_of_pos_left n positive
    omega
  · simp [Execution.repeats, Nat.mod_eq_of_lt short]

def Execution.cycle (around : run step s loop = some s) (positive : 0 < loop.length) :
    Execution step s :=
  Execution.repeats (fun _ => s) (fun _ => around) positive

variable {around : run step s loop = some s} {positive : 0 < loop.length}

theorem Execution.cycle_state (good : State → Prop)
    (always : ∀ early late middle, loop = early ++ late →
      run step s early = some middle → good middle) (n : ℕ) :
    good ((Execution.cycle around positive).state n) := by
  have short := Nat.mod_lt n positive
  exact always _ _ _ (List.take_append_drop (n % loop.length) loop).symm
    (along_next around short).1

theorem Execution.cycle_keeps (good : State → Prop) (begins : good s)
    (kept : ∀ s label after, label ∈ loop → good s → step s label = some after → good after)
    (n : ℕ) : good ((Execution.cycle around positive).state n) := by
  induction n with
  | zero =>
      rw [Execution.begins]
      exact begins
  | succ n ih =>
      have short := Nat.mod_lt n positive
      have here : (Execution.cycle around positive).label n = some loop[n % loop.length] :=
        List.getElem?_eq_getElem short
      exact kept _ _ _ (List.getElem_mem short) ih (Execution.takes here)

theorem Execution.cycle_returns (n : ℕ) :
    ∃ m, n ≤ m ∧ (Execution.cycle around positive).state m = s := by
  refine ⟨loop.length * n, Nat.le_mul_of_pos_left n positive, ?_⟩
  simp [Execution.cycle, Execution.repeats, along_start]

theorem Execution.cycle_label {label : Label} (member : label ∈ loop) (n : ℕ) :
    ∃ m, n ≤ m ∧ (Execution.cycle around positive).label m = some label :=
  Execution.repeats_label member n

end Cycles

end ConcurrencyCourse.Fairness
