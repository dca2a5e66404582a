import ConcurrencyCourse.Interleaving
import ConcurrencyCourse.Headcount
import ConcurrencyCourse.Fairness

/-!
`TrickyLock` of tasks/mutex/livelock/tricky_lock.hpp. The owner of the lock and every
failed attempt that has not stepped back yet have added 1 to the same `thread_count_`.
One label per atomic operation.
-/

namespace ConcurrencyCourse.TrickyLock

open Interleaving Headcount Fairness

/-- `locking` stands before the `fetch_add` of the loop in Lock; a thread that is
`critical` owns the lock until the `fetch_sub` of Unlock. -/
inductive Pc where
  | outside
  | locking
  | stepBack
  | critical
  deriving DecidableEq

inductive Op where
  | callLock
  | fetchAdd
  | stepBack
  | unlock
  deriving DecidableEq

structure State (Thread : Type) where
  threadCount : UInt64
  pc : Thread → Pc

variable {Thread : Type}

def init : State Thread := { threadCount := 0, pc := fun _ => .outside }

def afterAdd (old : UInt64) : Pc := if old > 0 then .stepBack else .critical

section Step
variable [DecidableEq Thread]

def step (s : State Thread) : Thread × Op → Option (State Thread)
  | (t, .callLock) => guarded (s.pc t = .outside)
      { s with pc := Function.update s.pc t .locking }
  | (t, .fetchAdd) => guarded (s.pc t = .locking)
      { s with
        threadCount := s.threadCount + 1
        pc := Function.update s.pc t (afterAdd s.threadCount) }
  | (t, .stepBack) => guarded (s.pc t = .stepBack)
      { s with
        threadCount := s.threadCount - 1
        pc := Function.update s.pc t .locking }
  | (t, .unlock) => guarded (s.pc t = .critical)
      { s with
        threadCount := s.threadCount - 1
        pc := Function.update s.pc t .outside }

end Step

/-- The thread has added its 1 to `thread_count_` and not taken it back. -/
def Pc.counted : Pc → Bool
  | .stepBack | .critical => true
  | _ => false

def Pc.owns : Pc → Bool
  | .critical => true
  | _ => false

theorem counted_afterAdd (old : UInt64) : (afterAdd old).counted = true := by
  unfold afterAdd
  split <;> rfl

theorem owns_afterAdd (old : UInt64) : (afterAdd old).owns = true ↔ old = 0 := by
  by_cases zero : old = 0
  · simp [afterAdd, zero, Pc.owns]
  · simp [afterAdd, zero, Pc.owns, UInt64.pos_iff_ne_zero]

section Counting
variable [Fintype Thread]

/-- The counter is the number of threads that have added to it, and the owner is one
of them. -/
structure Inv (s : State Thread) : Prop where
  count : s.threadCount.toNat = headcount Pc.counted s.pc
  owner : headcount Pc.owns s.pc ≤ 1

theorem inv_init : Inv (init : State Thread) where
  count := by
    rw [headcount_eq_zero.mpr fun _ => rfl]
    rfl
  owner := by
    rw [headcount_eq_zero.mpr fun _ => rfl]
    exact Nat.zero_le 1

variable {s after : State Thread} {t : Thread}

theorem Inv.counted_pos (inv : Inv s) (here : (s.pc t).counted = true) : s.threadCount ≠ 0 := by
  have someone := headcount_pos_of here
  rintro zero
  rw [← inv.count, zero] at someone
  exact absurd someone (by decide)

theorem Inv.nobody_owns (inv : Inv s) (zero : s.threadCount = 0) : headcount Pc.owns s.pc = 0 := by
  have nobody : headcount Pc.counted s.pc = 0 := by rw [← inv.count, zero]; rfl
  refine headcount_eq_zero.mpr fun u => ?_
  have away := headcount_eq_zero.mp nobody u
  cases here : s.pc u with
  | critical => simp [here, Pc.counted] at away
  | outside | locking | stepBack => rfl

variable [DecidableEq Thread]

theorem Inv.subtracts (inv : Inv s) (here : (s.pc t).counted = true) {next : Pc}
    (out : next.counted = false) :
    Inv { s with
      threadCount := s.threadCount - 1
      pc := Function.update s.pc t next } := by
  have disowned : next.owns = false := by
    cases next <;> first | rfl | cases out
  constructor
  · have less := sub_one_toNat (inv.counted_pos here)
    have left : headcount Pc.counted (Function.update s.pc t next) + 1 =
        headcount Pc.counted s.pc := headcount_leave here out
    have before := inv.count
    simp only
    omega
  · have moved := headcount_update Pc.owns s.pc t next
    have before := inv.owner
    simp only [disowned, Bool.toNat_false] at moved ⊢
    omega

theorem Inv.adds (inv : Inv s) (few : Fintype.card Thread < 2 ^ 64) (here : s.pc t = .locking) :
    Inv { s with
      threadCount := s.threadCount + 1
      pc := Function.update s.pc t (afterAdd s.threadCount) } := by
  have entered : headcount Pc.counted (Function.update s.pc t (afterAdd s.threadCount)) =
      headcount Pc.counted s.pc + 1 :=
    headcount_enter (by rw [here]; rfl) (counted_afterAdd _)
  have before := inv.count
  constructor
  · -- The other threads that have added are fewer than all threads.
    have bound := headcount_le_card Pc.counted (Function.update s.pc t (afterAdd s.threadCount))
    have more : (s.threadCount + 1).toNat = s.threadCount.toNat + 1 :=
      add_one_toNat (by omega)
    simp only
    omega
  · have moved := headcount_update Pc.owns s.pc t (afterAdd s.threadCount)
    by_cases zero : s.threadCount = 0
    · have nobody := inv.nobody_owns zero
      have most := Bool.toNat_le (afterAdd s.threadCount).owns
      simp only
      omega
    · have failed : (afterAdd s.threadCount).owns = false := by
        rw [Bool.eq_false_iff, Ne, owns_afterAdd]
        exact zero
      have most := inv.owner
      simp only [failed, Bool.toNat_false] at moved ⊢
      omega

theorem inv_step (few : Fintype.card Thread < 2 ^ 64) (inv : Inv s) {label : Thread × Op}
    (taken : step s label = some after) : Inv after := by
  obtain ⟨t, op⟩ := label
  cases op with
  | callLock =>
      rcases guarded_eq_some.mp taken with ⟨here, rfl⟩
      constructor
      · rw [headcount_still (by rw [here]; rfl)]
        exact inv.count
      · rw [headcount_still (by rw [here]; rfl)]
        exact inv.owner
  | fetchAdd =>
      rcases guarded_eq_some.mp taken with ⟨here, rfl⟩
      exact inv.adds few here
  | stepBack =>
      rcases guarded_eq_some.mp taken with ⟨here, rfl⟩
      exact inv.subtracts (by rw [here]; rfl) rfl
  | unlock =>
      rcases guarded_eq_some.mp taken with ⟨here, rfl⟩
      exact inv.subtracts (by rw [here]; rfl) rfl

variable {trace : List (Thread × Op)}

theorem inv_reached (few : Fintype.card Thread < 2 ^ 64)
    (reached : Reaches step unrestricted init trace s) : Inv s :=
  reached.invariant inv_init fun _ _ _ inv _ taken => inv_step few inv taken

/-- TrickyLock guarantees mutual exclusion. `thread_count_` is the number of threads that
own the lock or have incremented it and not stepped back, no `fetch_sub` runs at 0, one
thread at most owns the lock, and with nobody around the count is 0. -/
theorem tricky_lock_exclusive (few : Fintype.card Thread < 2 ^ 64)
    (reached : Reaches step unrestricted init trace s) :
    s.threadCount.toNat = headcount Pc.counted s.pc ∧
    (∀ t, s.pc t = .stepBack ∨ s.pc t = .critical → s.threadCount ≠ 0) ∧
    (∀ t u, s.pc t = .critical → s.pc u = .critical → t = u) ∧
    ((∀ t, s.pc t = .outside) → s.threadCount = 0) := by
  have inv := inv_reached few reached
  refine ⟨inv.count, ?_, ?_, ?_⟩
  · rintro t (here | here)
    · exact inv.counted_pos (t := t) (by rw [here]; rfl)
    · exact inv.counted_pos (t := t) (by rw [here]; rfl)
  · intro t u first second
    exact headcount_unique inv.owner (by rw [first]; rfl) (by rw [second]; rfl)
  · intro away
    have nobody : headcount Pc.counted s.pc = 0 :=
      headcount_eq_zero.mpr fun t => by rw [away t]; rfl
    exact UInt64.toNat_inj.mp (inv.count.trans nobody)

/-- Thread 0 has left while the increments of two failed attempts are still in the count;
thread 0 then fails too, though nobody owns the lock. -/
theorem tricky_lock_exclusive_nobody_owns :
    ∃ (trace : List (Fin 3 × Op)) (s : State (Fin 3)), run step init trace = some s ∧
      (∀ t, s.pc t = .stepBack) ∧ s.threadCount = 3 ∧
      s.threadCount.toNat = headcount Pc.counted s.pc := by
  have ran : run step (init : State (Fin 3))
      [(0, .callLock), (0, .fetchAdd), (1, .callLock), (1, .fetchAdd), (2, .callLock),
        (2, .fetchAdd), (0, .unlock), (0, .callLock), (0, .fetchAdd)] = some _ := rfl
  have exclusive := tricky_lock_exclusive (by decide) (run_free ran)
  exact ⟨_, _, ran, by decide, rfl, exclusive.1⟩

/-! The livelock of the exercise: once every thread has a failed attempt in the count,
each may step back and try again without the count ever coming down to 0. -/

theorem Inv.fails (inv : Inv s) {o : Thread} (counted : (s.pc o).counted = true)
    (here : s.pc t = .locking) : step s (t, .fetchAdd) = some
      { s with
        threadCount := s.threadCount + 1
        pc := Function.update s.pc t .stepBack } := by
  have busy : afterAdd s.threadCount = .stepBack := by
    simp [afterAdd, UInt64.pos_iff_ne_zero, inv.counted_pos counted]
  simp [step, guarded, here, busy]

theorem Inv.lines_up (few : Fintype.card Thread < 2 ^ 64) (inv : Inv s) {o : Thread}
    (different : o ≠ t) (counted : (s.pc o).counted = true) (out : (s.pc t).counted = false) :
    ∃ trace after, Reaches step unrestricted s trace after ∧ Inv after ∧
      after.pc = Function.update s.pc t .stepBack := by
  have locks (s' : State Thread) (inv' : Inv s') (counted' : (s'.pc o).counted = true)
      (here : s'.pc t = .locking) : ∃ trace after, Reaches step unrestricted s' trace after ∧
        Inv after ∧ after.pc = Function.update s'.pc t .stepBack := by
    have taken := inv'.fails counted' here
    exact ⟨_, _, .next (t, .fetchAdd) .start trivial taken, inv_step few inv' taken, rfl⟩
  cases here : s.pc t with
  | stepBack | critical => simp [here, Pc.counted] at out
  | locking => exact locks s inv counted here
  | outside =>
      have calls : step s (t, .callLock) =
          some { s with pc := Function.update s.pc t .locking } := by
        simp [step, guarded, here]
      obtain ⟨trace, after, reached, kept, stands⟩ :=
        locks _ (inv_step few inv calls) (by simpa [different] using counted) (by simp)
      exact ⟨_, after, .cons _ trivial calls reached, kept, by simpa using stands⟩

theorem Inv.gets_lock [Nonempty Thread] (few : Fintype.card Thread < 2 ^ 64) (inv : Inv s) :
    ∃ trace after o, Reaches step unrestricted s trace after ∧ Inv after ∧
      after.pc o = .critical := by
  by_cases owned : ∃ o, s.pc o = .critical
  · obtain ⟨o, inside⟩ := owned
    exact ⟨[], s, o, .start, inv, inside⟩
  -- Nobody owns the lock: the failed attempts all step back, and the count is 0.
  have back (s : State Thread) (t : Thread) (here : Inv s ∧ ∀ u, s.pc u ≠ .critical) :
      ∃ trace after, Reaches step unrestricted s trace after ∧
        (Inv after ∧ ∀ u, after.pc u ≠ .critical) ∧ (after.pc t).counted = false ∧
        ∀ u, (s.pc u).counted = false → (after.pc u).counted = false := by
    obtain ⟨inv', unowned⟩ := here
    cases stands : s.pc t with
    | critical => exact absurd stands (unowned t)
    | outside | locking =>
        exact ⟨[], s, .start, ⟨inv', unowned⟩, by rw [stands]; rfl, fun _ before => before⟩
    | stepBack =>
        have taken : step s (t, .stepBack) = some
            { s with
              threadCount := s.threadCount - 1
              pc := Function.update s.pc t .locking } := by
          simp [step, guarded, stands]
        refine ⟨_, _, .next (t, .stepBack) .start trivial taken,
          ⟨inv_step few inv' taken, fun u => ?_⟩, by simp [Pc.counted], fun u before => ?_⟩
        · by_cases self : u = t
          · simp [self]
          · simpa [self] using unowned u
        · by_cases self : u = t
          · simp [self, Pc.counted]
          · simpa [self] using before
  obtain ⟨trace, middle, reached, ⟨inv', -⟩, cleared, -⟩ :=
    reaches_each (fun s => Inv s ∧ ∀ u, s.pc u ≠ .critical) (fun t s => (s.pc t).counted = false)
      back Finset.univ.toList ⟨inv, fun u inside => owned ⟨u, inside⟩⟩
  have zero : middle.threadCount = 0 := by
    have nobody : headcount Pc.counted middle.pc = 0 :=
      headcount_eq_zero.mpr fun t => cleared t (by simp)
    exact UInt64.toNat_inj.mp (inv'.count.trans nobody)
  obtain ⟨t⟩ := (inferInstance : Nonempty Thread)
  have locks (s' : State Thread) (inv' : Inv s') (zero : s'.threadCount = 0)
      (here : s'.pc t = .locking) : ∃ trace after, Reaches step unrestricted s' trace after ∧
        Inv after ∧ after.pc t = .critical := by
    have taken : step s' (t, .fetchAdd) = some
        { s' with
          threadCount := s'.threadCount + 1
          pc := Function.update s'.pc t .critical } := by
      simp [step, guarded, here, afterAdd, zero]
    exact ⟨_, _, .next (t, .fetchAdd) .start trivial taken, inv_step few inv' taken, by simp⟩
  have out := cleared t (by simp)
  cases here : middle.pc t with
  | stepBack | critical => simp [here, Pc.counted] at out
  | locking =>
      obtain ⟨late, after, last, kept, inside⟩ := locks middle inv' zero here
      exact ⟨_, after, t, reached.append last, kept, inside⟩
  | outside =>
      have calls : step middle (t, .callLock) =
          some { middle with pc := Function.update middle.pc t .locking } := by
        simp [step, guarded, here]
      obtain ⟨late, after, last, kept, inside⟩ :=
        locks _ (inv_step few inv' calls) zero (by simp)
      exact ⟨_, after, t, reached.append (.cons _ trivial calls last), kept, inside⟩

theorem Inv.all_fail [Nontrivial Thread] (few : Fintype.card Thread < 2 ^ 64) (inv : Inv s) :
    ∃ trace after, Reaches step unrestricted s trace after ∧ Inv after ∧
      ∀ t, after.pc t = .stepBack := by
  obtain ⟨early, owned, o, reached, inv', inside⟩ := inv.gets_lock few
  have join (s : State Thread) (t : Thread) (here : Inv s ∧ s.pc o = .critical) :
      ∃ trace after, Reaches step unrestricted s trace after ∧
        (Inv after ∧ after.pc o = .critical) ∧ (t ≠ o → after.pc t = .stepBack) ∧
        ∀ u, (u ≠ o → s.pc u = .stepBack) → u ≠ o → after.pc u = .stepBack := by
    obtain ⟨inv', inside⟩ := here
    by_cases failed : t ≠ o → s.pc t = .stepBack
    · exact ⟨[], s, .start, ⟨inv', inside⟩, failed, fun _ before => before⟩
    · obtain ⟨different, elsewhere⟩ := Classical.not_imp.mp failed
      have out : (s.pc t).counted = false := by
        cases stands : s.pc t with
        | outside | locking => rfl
        | stepBack => exact absurd stands elsewhere
        | critical =>
            exact absurd (headcount_unique inv'.owner (by rw [stands]; rfl) (by rw [inside]; rfl))
              different
      obtain ⟨trace, after, reached, kept, stands⟩ :=
        inv'.lines_up few (Ne.symm different) (by rw [inside]; rfl) out
      refine ⟨trace, after, reached, ⟨kept, ?_⟩, fun _ => by simp [stands],
        fun u before other => ?_⟩
      · simpa [stands, Ne.symm different] using inside
      · by_cases self : u = t
        · simp [stands, self]
        · simpa [stands, self] using before other
  obtain ⟨trace, middle, gathered, ⟨kept, still⟩, failed, -⟩ :=
    reaches_each (fun s => Inv s ∧ s.pc o = .critical) (fun t s => t ≠ o → s.pc t = .stepBack)
      join Finset.univ.toList ⟨inv', inside⟩
  -- The owner leaves and is the last one to fail.
  have leaves : step middle (o, .unlock) = some
      { middle with
        threadCount := middle.threadCount - 1
        pc := Function.update middle.pc o .outside } := by
    simp [step, guarded, still]
  obtain ⟨other, different⟩ := exists_ne o
  have waits := failed other (by simp) different
  obtain ⟨late, after, last, kept', stands⟩ := (inv_step few kept leaves).lines_up few different
    (by simp [different, waits, Pc.counted]) (by simp [Pc.counted])
  refine ⟨_, after, reached.append (gathered.append (.cons _ trivial leaves last)), kept', ?_⟩
  intro t
  by_cases self : t = o
  · simp [stands, self]
  · simpa [stands, self] using failed t (by simp) self

theorem Inv.fails_again [Nontrivial Thread] (few : Fintype.card Thread < 2 ^ 64) (inv : Inv s)
    (failed : ∀ u, s.pc u = .stepBack) (t : Thread) :
    ∃ middle, step s (t, .stepBack) = some middle ∧ step middle (t, .fetchAdd) = some s ∧
      middle.pc = Function.update s.pc t .locking := by
  have taken : step s (t, .stepBack) = some
      { s with
        threadCount := s.threadCount - 1
        pc := Function.update s.pc t .locking } := by
    simp [step, guarded, failed t]
  obtain ⟨other, different⟩ := exists_ne t
  refine ⟨_, taken, ?_, rfl⟩
  rw [(inv_step few inv taken).fails (o := other) (by simp [different, failed other, Pc.counted])
    (by simp)]
  have stays : Function.update s.pc t .stepBack = s.pc := by
    rw [← failed t, Function.update_eq_self]
  simp [stays]

def turn (t : Thread) : List (Thread × Op) := [(t, .stepBack), (t, .fetchAdd)]

omit [Fintype Thread] in
/-- Turns that each end where they began; on the way only the thread whose turn it is has
stepped back. -/
theorem turns_return (each : ∀ t, ∃ middle, step s (t, .stepBack) = some middle ∧
      step middle (t, .fetchAdd) = some s) (threads : List Thread) :
    run step s (threads.flatMap turn) = some s ∧
      ∀ early late middle, threads.flatMap turn = early ++ late → run step s early = some middle →
        middle = s ∨ ∃ t, step s (t, .stepBack) = some middle := by
  induction threads with
  | nil =>
      refine ⟨rfl, fun early late middle whole ran => ?_⟩
      obtain ⟨rfl, rfl⟩ := List.append_eq_nil_iff.mp whole.symm
      exact .inl (Option.some.inj ran).symm
  | cons t rest ih =>
      obtain ⟨back, taken, again⟩ := each t
      constructor
      · simpa [turn, run, taken, again] using ih.1
      · intro early late middle parted ran
        have whole : (t, .stepBack) :: (t, .fetchAdd) :: rest.flatMap turn = early ++ late := parted
        -- Before the turn, in the middle of it, or after it.
        rcases early with _ | ⟨first, _ | ⟨second, early⟩⟩
        · exact .inl (Option.some.inj ran).symm
        · cases (List.cons.inj whole).1
          exact .inr ⟨t, by simpa [run] using ran⟩
        · simp only [List.cons_append, List.cons.injEq] at whole
          obtain ⟨rfl, rfl, remains⟩ := whole
          exact ih.2 early late middle remains (by simpa [run, taken, again] using ran)

/-- TrickyLock livelocks. With two threads or more, every run can be continued so that
from some moment on all threads are inside Lock and nobody owns the lock, and they go on
forever: each takes infinitely many steps and none of them ever gets the lock. -/
theorem livelock_reachable [Nontrivial Thread] (few : Fintype.card Thread < 2 ^ 64)
    (reached : Reaches step unrestricted init trace s) :
    ∃ (more : List (Thread × Op)) (stuck : State Thread) (e : Execution step stuck),
      Reaches step unrestricted s more stuck ∧
      (∀ n t, (e.state n).pc t = .locking ∨ (e.state n).pc t = .stepBack) ∧
      ∀ t n, ∃ m op, n ≤ m ∧ e.label m = some (t, op) := by
  obtain ⟨more, stuck, leads, inv, failed⟩ := (inv_reached few reached).all_fail few
  have again := inv.fails_again few failed
  obtain ⟨around, states⟩ := turns_return
    (fun t => let ⟨middle, taken, back, _⟩ := again t; ⟨middle, taken, back⟩) Finset.univ.toList
  obtain ⟨someone, -⟩ := exists_pair_ne Thread
  have member (t : Thread) : (t, Op.stepBack) ∈ Finset.univ.toList.flatMap turn :=
    List.mem_flatMap.mpr ⟨t, by simp, by simp [turn]⟩
  refine ⟨more, stuck, .cycle around (List.length_pos_of_mem (member someone)), leads, ?_, ?_⟩
  · refine Execution.cycle_state
      (fun s : State Thread => ∀ t, s.pc t = .locking ∨ s.pc t = .stepBack)
      fun early late middle whole ran t => ?_
    rcases states early late middle whole ran with rfl | ⟨u, taken⟩
    · exact .inr (failed t)
    · obtain ⟨middle', taken', -, stands⟩ := again u
      cases taken.symm.trans taken'
      by_cases self : t = u
      · exact .inl (by simp [stands, self])
      · exact .inr (by simp [stands, self, failed t])
  · intro t n
    obtain ⟨m, later, here⟩ := Execution.cycle_label (member t) n
    exact ⟨m, .stepBack, later, here⟩

theorem livelock_reachable_two :
    ∃ (more : List (Bool × Op)) (stuck : State Bool) (e : Execution step stuck),
      Reaches step unrestricted init more stuck ∧
      (∀ n t, (e.state n).pc t = .locking ∨ (e.state n).pc t = .stepBack) ∧
      ∀ t n, ∃ m op, n ≤ m ∧ e.label m = some (t, op) :=
  livelock_reachable (by decide) .start

end Counting
end ConcurrencyCourse.TrickyLock
