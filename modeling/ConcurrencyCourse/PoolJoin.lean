import ConcurrencyCourse.ThreadPool

/-!
`StaticThreadPool::Join`. Its loop tests `planned_work_counter_` and then calls
FutexWait with the constant 0, so it sleeps only where the work is already over; this
module says in which runs that sleep is heard, in which runs Join drains the pool, and
what a Submit that comes after Close leaves in the counter.
-/

namespace ConcurrencyCourse.ThreadPool

open Interleaving Headcount BlockingQueue

variable {Thread Task : Type}

def Pc.attends : Pc Thread Task → Bool
  | .increment _ _ | .put _ _ | .notifyOne => true
  | _ => false

/-- Join sleeps on the counter although the work is over and nobody is left to wake it:
the counter is 0, no Submit is in progress, no worker has a `notify_one` to perform. -/
def Stranded (s : State Thread Task) : Prop :=
  (∃ j, s.pc j = .futexParked) ∧ s.plannedWorkCounter = 0 ∧ ∀ u, (s.pc u).attends = false

/-- Join's FutexWait does not come after the last `notify_one`. With 2^32 tasks
outstanding a Put can also leave Join alone with a counter of 0. -/
def OnTime (s : State Thread Task) : Label Thread Task → Prop
  | (_, .futexWait) => s.plannedWorkCounter = 0 → ∃ u, (s.pc u).attends = true
  | (t, .put _ _ _) | (t, .putRefused _ _) =>
      (∃ j, s.pc j = .futexParked) → s.plannedWorkCounter = 0 →
        ∃ u, u ≠ t ∧ (s.pc u).attends = true
  | _ => True

theorem settled_attends : Settled (Pc.attends : Pc Thread Task → Bool) := ⟨rfl, rfl⟩

theorem parked_stopping {s : State Thread Task} {t : Thread} (parked : s.pc t = .futexParked) :
    (s.pc t).stopping = true := by
  rw [parked]
  rfl

section Sleep
variable [Fintype Thread] [DecidableEq Thread] [DecidableEq Task] {workers : List Thread}
  {s after : State Thread Task} {t u : Thread} {op : Op Thread Task}
  {trace : List (Label Thread Task)}

instance (s : State Thread Task) (label : Label Thread Task) : Decidable (OnTime s label) :=
  match label with
  | (_, .futexWait) => inferInstanceAs (Decidable (_ → _))
  | (_, .put _ _ _) | (_, .putRefused _ _) => inferInstanceAs (Decidable (_ → _ → _))
  | (_, .callSubmit _ _) | (_, .increment _ _) | (_, .take _) | (_, .takeWait)
  | (_, .spuriousTake) | (_, .takeNullopt) | (_, .finish _ _) | (_, .countDown)
  | (_, .notifyOne _) | (_, .callJoin) | (_, .joinTest) | (_, .spuriousFutex) | (_, .close)
  | (_, .joinWorker _ _ _) | (_, .joined _) | (_, .callShutdown) | (_, .cancel)
  | (_, .store) => inferInstanceAs (Decidable True)

theorem counter_kept (taken : step workers s (t, op) = some after)
    (still : (∀ parent task, op ≠ .increment parent task) ∧ op ≠ .countDown ∧ op ≠ .store) :
    after.plannedWorkCounter = s.plannedWorkCounter := by
  cases op with
  | increment parent task => exact absurd rfl (still.1 parent task)
  | countDown => exact absurd rfl still.2.1
  | store => exact absurd rfl still.2.2
  | _ =>
      rcases guarded_eq_some.mp taken with ⟨_, rfl⟩
      rfl

theorem parks (taken : step workers s (t, op) = some after)
    (parked : after.pc u = .futexParked) :
    s.pc u = .futexParked ∨ u = t ∧ op = .futexWait ∧ s.plannedWorkCounter = 0 := by
  by_cases self : u = t
  · subst self
    apply Or.inr
    rcases own_step taken with ⟨_, zero, there⟩
    rw [there] at parked
    cases op with
    | futexWait =>
        rcases guarded_eq_some.mp taken with ⟨_, rfl⟩
        by_cases same : s.plannedWorkCounter = 0
        · exact ⟨rfl, rfl, same⟩
        · simp [same] at there
          simp [← there] at parked
    | callSubmit parent | put parent | putRefused parent => cases parent <;> cases parked
    | joined stop => cases stop <;> cases parked
    | _ => cases zero <;> cases parked
  · rcases other_step self taken with same | ⟨_, awake⟩ | ⟨_, awake⟩
    · exact Or.inl (same ▸ parked)
    · simp [awake] at parked
    · simp [awake] at parked

theorem notify_wakes (reached : Reaches (step workers) unrestricted (init workers) trace s)
    {woken : Option Thread} (taken : step workers s (t, .notifyOne woken) = some after)
    (u : Thread) : after.pc u ≠ .futexParked := by
  intro parked
  rcases guarded_eq_some.mp taken with ⟨⟨_, wakes⟩, rfl⟩
  by_cases self : u = t
  · subst self
    simp at parked
  · simp only [Function.update_of_ne self] at parked
    cases woken with
    | none =>
        have awake := wakes u
        simp only [wakeOne] at parked
        simp [parked, Pc.isFutexParked] at awake
    | some v =>
        by_cases same : u = v
        · subst same
          simp [wakeOne] at parked
        · simp only [wakeOne, Function.update_of_ne same] at parked
          have asleep : s.pc v = .futexParked := futexParked_of wakes
          exact same (stopper_unique reached (parked_stopping parked) (parked_stopping asleep))

theorem sleeps_on (taken : step workers s (t, op) = some after) (other : u ≠ t)
    (parked : s.pc u = .futexParked) (silent : ∀ woken, op ≠ .notifyOne woken) :
    after.pc u = .futexParked := by
  cases op with
  | notifyOne woken => exact absurd rfl (silent woken)
  | put parent task woken =>
      rcases guarded_eq_some.mp taken with ⟨⟨_, _, wakes⟩, rfl⟩
      have awake := wakeOne_awake .take wakes (t := u) (by rw [parked]; rfl)
      simp [other, awake, parked]
  | close | cancel =>
      rcases guarded_eq_some.mp taken with ⟨_, rfl⟩
      simp [other, wakeAll, parked, Pc.isParkedTake]
  | _ =>
      rcases guarded_eq_some.mp taken with ⟨_, rfl⟩
      simp [other, parked]

theorem stranded_step (reached : Reaches (step workers) unrestricted (init workers) trace s)
    (fine : ¬ Stranded s) (onTime : OnTime s (t, op))
    (taken : step workers s (t, op) = some after) : ¬ Stranded after := by
  rintro ⟨⟨j, parked⟩, zero, alone⟩
  have kept : ∀ u, u ≠ t → (s.pc u).attends = true → False := by
    intro u other attends
    have now := alone u
    rw [settled_attends.other taken u other, attends] at now
    cases now
  rcases own_step taken with ⟨here, test, there⟩
  have leaving := alone t
  rw [there] at leaving
  -- Join was asleep before this step, or it falls asleep in it.
  rcases parks taken parked with before | ⟨rfl, rfl, atZero⟩
  · have attended : s.plannedWorkCounter = 0 → ∃ u, (s.pc u).attends = true := by
      intro atZero
      by_contra nobody
      apply fine
      refine ⟨⟨j, before⟩, atZero, ?_⟩
      intro u
      cases attends : (s.pc u).attends with
      | false => rfl
      | true => exact absurd ⟨u, attends⟩ nobody
    have others : op.source.attends = false → s.plannedWorkCounter ≠ 0 := by
      intro away atZero
      rcases attended atZero with ⟨u, attends⟩
      have other : u ≠ t := by
        rintro rfl
        rw [here, away] at attends
        cases attends
      exact kept u other attends
    cases op with
    | callSubmit parent task | increment parent task => cases leaving
    | put parent task woken | putRefused parent task =>
        have same := counter_kept taken (by simp)
        rcases onTime ⟨j, before⟩ (same ▸ zero) with ⟨u, other, attends⟩
        exact kept u other attends
    | notifyOne woken => exact notify_wakes reached taken j parked
    | countDown =>
        -- The decrement that ends at 0 owes a `notify_one`.
        rcases guarded_eq_some.mp taken with ⟨_, rfl⟩
        have now := alone t
        simp only [Function.update_self] at now
        rw [if_pos zero] at now
        cases now
    | store =>
        have same := stopper_unique reached (parked_stopping before)
          (show (s.pc t).stopping = true by rw [here]; rfl)
        rw [same, here] at before
        cases before
    | joined stop => exact others rfl (counter_kept taken (by simp) ▸ zero)
    | _ => exact others rfl (counter_kept taken (by simp) ▸ zero)
  · rcases onTime atZero with ⟨u, attends⟩
    have other : u ≠ j := by
      rintro rfl
      rw [here] at attends
      cases attends
    exact kept u other attends

theorem late_strands (taken : step workers s (t, op) = some after)
    (late : ¬ OnTime s (t, op)) : Stranded after := by
  have alone : (after.pc t).attends = false → (∀ u, u ≠ t → (s.pc u).attends = false) →
      ∀ u, (after.pc u).attends = false := by
    intro mine others u
    by_cases self : u = t
    · exact self ▸ mine
    · rw [settled_attends.other taken u self]
      exact others u self
  cases op with
  | futexWait =>
      simp only [OnTime, not_forall, not_exists, Bool.not_eq_true] at late
      rcases late with ⟨zero, nobody⟩
      have there : after.pc t = .futexParked := by
        rcases guarded_eq_some.mp taken with ⟨_, rfl⟩
        simp [zero]
      refine ⟨⟨t, there⟩, (counter_kept taken (by simp)).trans zero, ?_⟩
      exact alone (by rw [there]; rfl) fun u _ => nobody u
  | put parent task | putRefused parent task =>
      simp only [OnTime, not_forall, not_exists, not_and, Bool.not_eq_true] at late
      rcases late with ⟨⟨j, parked⟩, zero, nobody⟩
      rcases own_step taken with ⟨here, test, there⟩
      have other : j ≠ t := by
        rintro rfl
        rw [here] at parked
        cases parked
      have asleep := sleeps_on taken other parked (by simp)
      refine ⟨⟨j, asleep⟩, (counter_kept taken (by simp)).trans zero, ?_⟩
      apply alone
      · rw [there]
        cases parent <;> rfl
      · exact nobody
  | _ => exact absurd trivial late

/-- The runs in which Join never sleeps through the end of the work are those that
meet `OnTime` at every step. -/
theorem join_hears (trace : List (Label Thread Task)) (s : State Thread Task) :
    Reaches (step workers) OnTime (init workers) trace s ↔
      Reaches (step workers) unrestricted (init workers) trace s ∧
      ∀ early (s' : State Thread Task), early <+: trace →
        Reaches (step workers) unrestricted (init workers) early s' → ¬ Stranded s' := by
  apply reaches_exactly
  · intro trace s reached
    induction reached with
    | start =>
        rintro ⟨⟨j, parked⟩, _⟩
        by_cases worker : j ∈ workers <;> simp [init, worker] at parked
    | next label reached onTime taken ih =>
        exact stranded_step reached.free ih onTime taken
  · intro trace s label after _ taken late fine
    exact fine (late_strands taken late)

end Sleep

/-- Join calls FutexWait between the last decrement and its `notify_one`, and hears it. -/
theorem join_hears_notify : ∃ (trace : List (Label (Fin 2) Unit)) (s : State (Fin 2) Unit),
    run (restricted (step [0]) OnTime) (init [0]) trace = some s ∧ s.pc 1 = .close ∧
      ¬ Stranded s := by
  have ran : run (restricted (step [0]) OnTime) (init [0] : State (Fin 2) Unit)
      [(1, .callSubmit none ()), (1, .increment none ()), (1, .put none () none),
        (0, .take ()), (0, .finish () false), (1, .callJoin), (1, .joinTest), (0, .countDown),
        (1, .futexWait), (0, .notifyOne (some 1)), (1, .joinTest)] = some _ := rfl
  have heard := (join_hears _ _).mp (run_reaches ran)
  exact ⟨_, _, ran, rfl, heard.2 _ _ (List.prefix_refl _) heard.1⟩

/-- The last decrement and its `notify_one` fall between Join's test and its FutexWait:
Join sleeps on a counter that stays 0. -/
theorem join_sleeps_through :
    ¬ ∀ (trace : List (Label (Fin 2) Unit)) (s : State (Fin 2) Unit),
      Reaches (step [0]) unrestricted (init [0]) trace s → ¬ Stranded s := by
  intro heard
  have ran : run (step [0]) (init [0] : State (Fin 2) Unit)
      [(1, .callSubmit none ()), (1, .increment none ()), (1, .put none () none),
        (0, .take ()), (0, .finish () false), (1, .callJoin), (1, .joinTest), (0, .countDown),
        (0, .notifyOne none), (1, .futexWait)] = some _ := rfl
  exact heard _ _ (run_free ran) ⟨⟨1, rfl⟩, rfl, by decide⟩

/-! A pool whose outside Submits have all returned before Join is called. -/

def Pc.outsideSubmit : Pc Thread Task → Bool
  | .increment none _ | .put none _ => true
  | _ => false

/-- Submits from outside come and go before Join, the pool is stopped by Join, and
fewer than 2^32 tasks are outstanding at once. -/
def Orderly [Fintype Thread] (s : State Thread Task) : Label Thread Task → Prop
  | (_, .callSubmit none _) => s.stopCalled = false
  | (_, .callJoin) => ∀ u, (s.pc u).outsideSubmit = false
  | (_, .increment _ _) => outstanding s + 1 < 2 ^ 32
  | (_, .callShutdown) => False
  | _ => True

def Pc.pastLoop : Pc Thread Task → Bool
  | .close | .joining _ _ | .store | .stopped => true
  | _ => false

def Drained (s : State Thread Task) : Prop :=
  s.tasks.queue = [] ∧ ∀ u, (s.pc u).hasTaken = false ∧ (s.pc u).submitting = false

theorem submitting_inside {s : State Thread Task} (u : Thread) (quiet : (s.pc u).hasTaken = false)
    (inside : (s.pc u).outsideSubmit = false) : (s.pc u).submitting = false := by
  cases here : s.pc u with
  | increment parent | put parent =>
      cases parent <;> simp [here, Pc.hasTaken, Pc.outsideSubmit] at quiet inside
  | _ => rfl

structure Draining [Fintype Thread] (s : State Thread Task) : Prop where
  bounded : outstanding s < 2 ^ 32
  inside : s.stopCalled = true → ∀ u, (s.pc u).outsideSubmit = false
  closed : s.tasks.isClosed = true → ∃ j, (s.pc j).pastLoop = true
  drained : (∃ j, (s.pc j).pastLoop = true) → Drained s

section Drain

theorem Drained.submits [Fintype Thread] [DecidableEq Task] {s : State Thread Task}
    (drained : Drained s) (task : Task) : headcount (Pc.submits task) s.pc = 0 := by
  apply headcount_eq_zero.mpr
  intro u
  have silent := (drained.2 u).2
  cases here : s.pc u <;> rw [here] at silent <;> first | rfl | cases silent

theorem Drained.runs [Fintype Thread] [DecidableEq Task] {s : State Thread Task}
    (drained : Drained s) (task : Task) : headcount (Pc.runs task) s.pc = 0 := by
  apply headcount_eq_zero.mpr
  intro u
  have idle := (drained.2 u).1
  cases here : s.pc u with
  | increment parent | put parent =>
      cases parent with
      | none => rfl
      | some parent =>
          rw [here] at idle
          cases idle
  | _ =>
      rw [here] at idle
      first | rfl | cases idle

theorem orderly_joinOnly [Fintype Thread] (s : State Thread Task) (label : Label Thread Task)
    (orderly : Orderly s label) : joinOnly s label := by
  rcases label with ⟨t, op⟩
  rintro rfl
  exact orderly

theorem drained_of_zero [Fintype Thread] {s : State Thread Task} (none' : outstanding s = 0)
    (inside : ∀ u, (s.pc u).outsideSubmit = false) : Drained s := by
  unfold outstanding pending at none'
  have idle : headcount Pc.hasTaken s.pc = 0 := by omega
  have quiet := headcount_eq_zero.mp idle
  constructor
  · apply List.length_eq_zero_iff.mp
    omega
  · intro u
    exact ⟨quiet u, submitting_inside u (quiet u) (inside u)⟩

theorem draining_start [Fintype Thread] [DecidableEq Thread] {workers : List Thread} :
    Draining (init workers : State Thread Task) where
  bounded := by
    rw [outstanding_init]
    exact Nat.two_pow_pos 32
  inside := by simp [init]
  closed := by simp [init, empty]
  drained := by
    rintro ⟨j, past⟩
    by_cases worker : j ∈ workers <;> simp [init, worker, Pc.pastLoop] at past

variable [Fintype Thread] [DecidableEq Thread] [DecidableEq Task] {workers : List Thread}
  {s after : State Thread Task} {t u : Thread} {op : Op Thread Task}
  {trace : List (Label Thread Task)}

instance (s : State Thread Task) (label : Label Thread Task) : Decidable (Orderly s label) :=
  match label with
  | (_, .callSubmit none _) => inferInstanceAs (Decidable (_ = false))
  | (_, .callJoin) => inferInstanceAs (Decidable (∀ _, _))
  | (_, .increment _ _) => inferInstanceAs (Decidable (_ < _))
  | (_, .callShutdown) => inferInstanceAs (Decidable False)
  | (_, .callSubmit (some _) _) | (_, .put _ _ _) | (_, .putRefused _ _) | (_, .take _)
  | (_, .takeWait) | (_, .spuriousTake) | (_, .takeNullopt) | (_, .finish _ _)
  | (_, .countDown) | (_, .notifyOne _) | (_, .joinTest) | (_, .futexWait)
  | (_, .spuriousFutex) | (_, .close) | (_, .joinWorker _ _ _) | (_, .joined _)
  | (_, .cancel) | (_, .store) => inferInstanceAs (Decidable True)

theorem Drained.kept (drained : Drained s) (taken : step workers s (t, op) = some after)
    (inside : ∀ task, op ≠ .callSubmit none task) : Drained after := by
  rcases drained with ⟨content, quiet⟩
  rcases own_step taken with ⟨here, zero, there⟩
  have idle := (quiet t).1
  have silent := (quiet t).2
  rw [here] at idle silent
  have others : (after.pc t).hasTaken = false → (after.pc t).submitting = false →
      ∀ u, (after.pc u).hasTaken = false ∧ (after.pc u).submitting = false := by
    intro mine yours u
    by_cases self : u = t
    · subst self
      exact ⟨mine, yours⟩
    · have settled : Settled (Pc.submitting : Pc Thread Task → Bool) := ⟨rfl, rfl⟩
      rw [settled_hasTaken.other taken u self, settled.other taken u self]
      exact quiet u
  rw [there] at others
  cases op with
  | callSubmit parent task =>
      cases parent with
      | none => exact absurd rfl (inside task)
      | some parent => cases idle
  | increment parent task | put parent task | putRefused parent task => cases silent
  | finish task | countDown => cases idle
  | take task =>
      rcases guarded_eq_some.mp taken with ⟨⟨_, found⟩, _⟩
      rcases UnboundedBlockingQueue.take_value found with ⟨rest, front, _⟩
      simp [content] at front
  | close | cancel =>
      rcases guarded_eq_some.mp taken with ⟨_, rfl⟩
      exact ⟨by simp [UnboundedBlockingQueue.close, UnboundedBlockingQueue.cancel,
        UnboundedBlockingQueue.closeImpl, content], others rfl rfl⟩
  | joined stop =>
      rcases guarded_eq_some.mp taken with ⟨_, rfl⟩
      cases stop <;> exact ⟨content, others rfl rfl⟩
  | _ =>
      rcases guarded_eq_some.mp taken with ⟨_, rfl⟩
      cases zero <;> exact ⟨content, others rfl rfl⟩

theorem pastLoop_kept (taken : step workers s (t, op) = some after)
    (past : (s.pc u).pastLoop = true) : (after.pc u).pastLoop = true := by
  have settled : Settled (Pc.pastLoop : Pc Thread Task → Bool) := ⟨rfl, rfl⟩
  rcases settled.cases taken u with same | ⟨_, here, zero, there⟩
  · rw [same]
    exact past
  · rw [here] at past
    rw [there]
    cases op with
    | callSubmit parent => cases parent <;> cases past
    | joined stop => cases stop <;> rfl
    | _ => first | rfl | cases past

theorem leaves_loop (taken : step workers s (t, op) = some after) (kept : op ≠ .cancel)
    (past : (after.pc u).pastLoop = true) :
    (s.pc u).pastLoop = true ∨ u = t ∧ op = .joinTest ∧ s.plannedWorkCounter = 0 := by
  have settled : Settled (Pc.pastLoop : Pc Thread Task → Bool) := ⟨rfl, rfl⟩
  rcases settled.cases taken u with same | ⟨rfl, here, zero, there⟩
  · exact Or.inl (same ▸ past)
  · rw [here]
    rw [there] at past
    cases op with
    | cancel => exact absurd rfl kept
    | joinTest =>
        rcases guarded_eq_some.mp taken with ⟨_, rfl⟩
        by_cases same : s.plannedWorkCounter = 0
        · exact Or.inr ⟨rfl, rfl, same⟩
        · simp [same] at there
          simp [← there, Pc.pastLoop] at past
    | callSubmit parent | put parent | putRefused parent => cases parent <;> cases past
    | joined stop => exact Or.inl rfl
    | _ => cases zero <;> first | exact Or.inl rfl | cases past

theorem closes (taken : step workers s (t, op) = some after) (kept : op ≠ .cancel)
    (closed : after.tasks.isClosed = true) : s.tasks.isClosed = true ∨ op = .close := by
  cases op with
  | cancel => exact absurd rfl kept
  | close => exact Or.inr rfl
  | put parent task woken =>
      rcases guarded_eq_some.mp taken with ⟨⟨_, open', _⟩, rfl⟩
      simpa [UnboundedBlockingQueue.put_accepts open'] using closed
  | putRefused parent task =>
      rcases guarded_eq_some.mp taken with ⟨⟨_, refuses⟩, rfl⟩
      exact Or.inl (UnboundedBlockingQueue.put_refuses refuses).1
  | take task =>
      rcases guarded_eq_some.mp taken with ⟨⟨_, found⟩, rfl⟩
      rcases UnboundedBlockingQueue.take_value found with ⟨rest, _, left⟩
      simpa [left] using closed
  | _ =>
      rcases guarded_eq_some.mp taken with ⟨_, rfl⟩
      exact Or.inl closed

theorem outside_kept (before : (s.pc u).outsideSubmit = false)
    (inside : ∀ task, op ≠ .callSubmit none task) (taken : step workers s (t, op) = some after) :
    (after.pc u).outsideSubmit = false := by
  have settled : Settled (Pc.outsideSubmit : Pc Thread Task → Bool) := ⟨rfl, rfl⟩
  rcases settled.cases taken u with same | ⟨_, here, zero, there⟩
  · rw [same, before]
  · rw [here] at before
    rw [there]
    cases op with
    | callSubmit parent task =>
        cases parent with
        | none => exact absurd rfl (inside task)
        | some parent => rfl
    | increment parent | put parent | putRefused parent =>
        cases parent <;> first | rfl | cases before
    | joined stop => cases stop <;> rfl
    | _ => cases zero <;> rfl

theorem inside_step (inside : s.stopCalled = true → ∀ u, (s.pc u).outsideSubmit = false)
    (orderly : Orderly s (t, op)) (taken : step workers s (t, op) = some after)
    (called : after.stopCalled = true) (u : Thread) : (after.pc u).outsideSubmit = false := by
  refine outside_kept ?_ ?_ taken
  · cases already : s.stopCalled with
    | true => exact inside already u
    | false =>
        cases op with
        | callJoin => exact orderly u
        | callShutdown => cases orderly
        | _ =>
            rcases guarded_eq_some.mp taken with ⟨_, rfl⟩
            simp [already] at called
  · rintro task rfl
    rcases guarded_eq_some.mp taken with ⟨_, rfl⟩
    simp only [Orderly] at orderly
    simp [orderly] at called

theorem Draining.kept (draining : Draining s)
    (reached : Reaches (step workers) joinOnly (init workers) trace s)
    (whole : refused trace = []) (orderly : Orderly s (t, op))
    (taken : step workers s (t, op) = some after) : Draining after := by
  rcases join_ordinary reached taken with ⟨kept, unset⟩
  constructor
  · have bounded := draining.bounded
    rcases outstanding_step taken kept unset with ⟨_, _, same⟩ | ⟨_, _, rfl, _, same⟩ |
        ⟨_, _, same⟩ | ⟨_, _, same⟩
    · omega
    · simp only [Orderly] at orderly
      omega
    · omega
    · omega
  · exact inside_step draining.inside orderly taken
  · intro closed
    rcases closes taken kept closed with before | rfl
    · rcases draining.closed before with ⟨j, past⟩
      exact ⟨j, pastLoop_kept taken past⟩
    · rcases own_step taken with ⟨_, _, there⟩
      exact ⟨t, by rw [there]; rfl⟩
  · rintro ⟨j, past⟩
    rcases leaves_loop taken kept past with before | ⟨rfl, rfl, zero⟩
    · -- After that only a Submit from outside could bring work, and Join was called.
      apply (draining.drained ⟨j, before⟩).kept taken
      rintro task rfl
      have stops : (s.pc j).stopping = true := by
        cases there : s.pc j <;> rw [there] at before <;> first | rfl | cases before
      simp only [Orderly] at orderly
      rw [stopping_called reached.free stops] at orderly
      cases orderly
    · -- The test found 0, and the counter is exact: nothing is outstanding.
      have here := (own_step taken).1
      have called := stopping_called reached.free (t := j) (by rw [here]; rfl)
      have balanced := counter_balance reached
      have none' : outstanding s = 0 := by
        have value := congrArg UInt32.toNat (balanced.symm.trans zero)
        have bounded := draining.bounded
        simp only [whole, List.length_nil, Nat.add_zero, UInt32.toNat_ofNat',
          UInt32.toNat_zero] at value
        omega
      exact (drained_of_zero none' (draining.inside called)).kept taken (by simp)

theorem orderly_draining (reached : Reaches (step workers) Orderly (init workers) trace s) :
    Draining s ∧ refused trace = [] := by
  induction reached with
  | start => exact ⟨draining_start, rfl⟩
  | @next trace s after label reached orderly taken ih =>
      rcases label with ⟨t, op⟩
      rcases ih with ⟨draining, whole⟩
      constructor
      · exact draining.kept (reached.weaken orderly_joinOnly) whole orderly taken
      · unfold refused at whole ⊢
        rw [filterMap_snoc, whole]
        cases op with
        | putRefused parent task =>
            -- A closed queue is a drained one, and nobody is at Put there.
            rcases guarded_eq_some.mp taken with ⟨⟨here, refuses⟩, _⟩
            have closed := (UnboundedBlockingQueue.put_refuses refuses).1
            have silent := ((draining.drained (draining.closed closed)).2 t).2
            rw [here] at silent
            cases silent
        | _ => rfl

/-- Join drains the pool. If the Submits from outside return before Join is called, no
task is ever refused, and once Join is past its loop nothing is queued, nothing runs,
nobody submits, and the tasks submitted, nested ones included, are those started and
those finished, each exactly once. -/
theorem join_drains (reached : Reaches (step workers) Orderly (init workers) trace s) :
    refused trace = [] ∧ ∀ j, (s.pc j).pastLoop = true →
      Drained s ∧ (submitted trace).Perm (started trace) ∧
        (submitted trace).Perm (finished trace) := by
  rcases orderly_draining reached with ⟨draining, whole⟩
  refine ⟨whole, ?_⟩
  intro j past
  have drained := draining.drained ⟨j, past⟩
  have order := accepted_in_order (reached.weaken orderly_joinOnly)
  rw [drained.1, List.append_nil] at order
  have begun : (submitted trace).Perm (started trace) := by
    apply List.perm_iff_count.mpr
    intro task
    have submits := submitted_count reached.free task
    rw [submits, drained.submits task, whole, order]
    simp
  refine ⟨drained, begun, begun.trans ?_⟩
  apply List.perm_iff_count.mpr
  intro task
  rw [started_count reached.free task, drained.runs task]
  rfl

end Drain

/-- A task submits another one and throws; Join waits for both. -/
theorem join_drains_nested : ∃ (trace : List (Label (Fin 3) Bool)) (s : State (Fin 3) Bool),
    run (restricted (step [0, 1]) Orderly) (init [0, 1]) trace = some s ∧
      submitted trace = [true, false] ∧ s.pc 2 = .close ∧ Drained s ∧
      (submitted trace).Perm (finished trace) := by
  have ran : run (restricted (step [0, 1]) Orderly) (init [0, 1] : State (Fin 3) Bool)
      [(1, .takeWait), (2, .callSubmit none true), (2, .increment none true),
        (2, .put none true (some 1)), (0, .take true), (2, .callJoin),
        (0, .callSubmit (some true) false), (0, .increment (some true) false),
        (0, .put (some true) false none), (2, .joinTest), (2, .futexWait), (1, .take false),
        (0, .finish true true), (0, .countDown), (2, .joinTest), (1, .finish false false),
        (1, .countDown), (2, .futexWait), (1, .notifyOne (some 2)), (2, .joinTest)] =
      some _ := rfl
  have drains := (join_drains (run_reaches ran)).2 2 rfl
  exact ⟨_, _, ran, rfl, rfl, drains.1, drains.2.2⟩

/-! Submits that come after Close. -/

def Quiet (s : State Thread Task) : Prop := ∀ u, (s.pc u).submitting = false

/-- No Put comes after Close, and the counter does not wrap. -/
def InOrder [Fintype Thread] (s : State Thread Task) : Label Thread Task → Prop
  | (_, .increment _ _) => outstanding s + 1 < 2 ^ 32
  | (_, .put _ _ _) | (_, .putRefused _ _) => s.tasks.isClosed = false
  | (_, .callShutdown) => False
  | _ => True

section Late

theorem inOrder_joinOnly [Fintype Thread] (s : State Thread Task) (label : Label Thread Task)
    (inOrder : InOrder s label) : joinOnly s label := by
  rcases label with ⟨t, op⟩
  rintro rfl
  exact inOrder

theorem quiet_outstanding [Fintype Thread] {s : State Thread Task} (quiet : Quiet s) :
    outstanding s = pending s := by
  have putters : headcount Pc.atPut s.pc = 0 := by
    apply headcount_eq_zero.mpr
    intro u
    have silent := quiet u
    cases here : s.pc u <;> rw [here] at silent <;> first | rfl | cases silent
  rw [outstanding, putters, Nat.add_zero]

variable [Fintype Thread] [DecidableEq Thread] [DecidableEq Task] {workers : List Thread}
  {s after : State Thread Task} {t u : Thread} {op : Op Thread Task}
  {trace : List (Label Thread Task)}

instance (s : State Thread Task) (label : Label Thread Task) : Decidable (InOrder s label) :=
  match label with
  | (_, .increment _ _) => inferInstanceAs (Decidable (_ < _))
  | (_, .put _ _ _) | (_, .putRefused _ _) => inferInstanceAs (Decidable (_ = false))
  | (_, .callShutdown) => inferInstanceAs (Decidable False)
  | (_, .callSubmit _ _) | (_, .take _) | (_, .takeWait) | (_, .spuriousTake)
  | (_, .takeNullopt) | (_, .finish _ _) | (_, .countDown) | (_, .notifyOne _)
  | (_, .callJoin) | (_, .joinTest) | (_, .futexWait) | (_, .spuriousFutex) | (_, .close)
  | (_, .joinWorker _ _ _) | (_, .joined _) | (_, .cancel) | (_, .store) =>
      inferInstanceAs (Decidable True)

instance (s : State Thread Task) : Decidable (Quiet s) :=
  inferInstanceAs (Decidable (∀ u, (s.pc u).submitting = false))

theorem inOrder_kept (reached : Reaches (step workers) InOrder (init workers) trace s) :
    refused trace = [] ∧ outstanding s < 2 ^ 32 := by
  induction reached with
  | start => exact ⟨rfl, by rw [outstanding_init]; exact Nat.two_pow_pos 32⟩
  | @next trace s after label reached inOrder taken ih =>
      rcases label with ⟨t, op⟩
      rcases ih with ⟨whole, bounded⟩
      rcases join_ordinary (reached.weaken inOrder_joinOnly) taken with ⟨kept, unset⟩
      constructor
      · unfold refused at whole ⊢
        rw [filterMap_snoc, whole]
        cases op with
        | putRefused parent task =>
            rcases guarded_eq_some.mp taken with ⟨⟨_, refuses⟩, _⟩
            have closed := (UnboundedBlockingQueue.put_refuses refuses).1
            simp only [InOrder, closed] at inOrder
            cases inOrder
        | _ => rfl
      · rcases outstanding_step taken kept unset with ⟨_, _, same⟩ | ⟨_, _, rfl, _, same⟩ |
            ⟨_, _, same⟩ | ⟨_, _, same⟩
        · omega
        · simp only [InOrder] at inOrder
          omega
        · omega
        · omega

theorem quiet_counter (reached : Reaches (step workers) joinOnly (init workers) trace s)
    (quiet : Quiet s) :
    s.plannedWorkCounter.toNat = (pending s + (refused trace).length) % 2 ^ 32 := by
  rw [counter_balance reached, quiet_outstanding quiet, UInt32.toNat_ofNat']

theorem stopped_pending (reached : Reaches (step workers) joinOnly (init workers) trace s)
    (stopped : s.pc t = .stopped) : pending s = s.tasks.queue.length := by
  rw [pending, headcount_eq_zero.mpr (stopped_idle reached.free stopped), Nat.add_zero]

/-- What a late Submit leaves behind. Where no Submit is in progress the counter is the
number of tasks queued or in hand exactly if the number of refused tasks is a multiple
of 2^32 and fewer than 2^32 are pending; when Join has returned too, it is 0 exactly if
the refused tasks and those left in the queue, which a pool with a worker has none of,
make a multiple of 2^32. In particular the balance holds in every run in which no Put
comes after Close and the counter does not wrap. -/
theorem late_submit_balance :
    (∀ (trace : List (Label Thread Task)) (s : State Thread Task),
      Reaches (step workers) joinOnly (init workers) trace s → Quiet s →
      (s.plannedWorkCounter.toNat = pending s ↔
        2 ^ 32 ∣ (refused trace).length ∧ pending s < 2 ^ 32) ∧
      ∀ j, s.pc j = .stopped →
        (s.plannedWorkCounter = 0 ↔
          2 ^ 32 ∣ s.tasks.queue.length + (refused trace).length) ∧
        (workers ≠ [] → s.tasks.queue = [])) ∧
    (∀ (trace : List (Label Thread Task)) (s : State Thread Task),
      Reaches (step workers) InOrder (init workers) trace s → Quiet s →
      s.plannedWorkCounter.toNat = pending s ∧
      ∀ j, s.pc j = .stopped → workers ≠ [] → s.plannedWorkCounter = 0) := by
  constructor
  · intro trace s reached quiet
    have value := quiet_counter reached quiet
    constructor
    · rw [value]
      constructor
      · intro balanced
        constructor <;> omega
      · rintro ⟨multiple, few⟩
        omega
    · intro j stopped
      constructor
      · rw [← UInt32.toNat_inj, value, stopped_pending reached stopped, UInt32.toNat_zero]
        exact Nat.dvd_iff_mod_eq_zero.symm
      · intro staffed
        exact stopped_empty reached.free stopped staffed
  · intro trace s reached quiet
    have joined := reached.weaken inOrder_joinOnly
    have value := quiet_counter joined quiet
    rcases inOrder_kept reached with ⟨whole, bounded⟩
    rw [quiet_outstanding quiet] at bounded
    rw [whole, List.length_nil, Nat.add_zero, Nat.mod_eq_of_lt bounded] at value
    constructor
    · exact value
    · intro j stopped staffed
      apply UInt32.toNat_inj.mp
      rw [value, stopped_pending joined stopped, stopped_empty reached.free stopped staffed]
      rfl

end Late

/-- A Submit that races with Join and is in time: its task is run, and the counter ends
at 0. -/
theorem late_submit_balance_in_time :
    ∃ (trace : List (Label (Fin 3) Unit)) (s : State (Fin 3) Unit),
      run (restricted (step [0]) InOrder) (init [0]) trace = some s ∧ s.pc 1 = .stopped ∧
      s.plannedWorkCounter = 0 := by
  have ran : run (restricted (step [0]) InOrder) (init [0] : State (Fin 3) Unit)
      [(2, .callSubmit none ()), (1, .callJoin), (1, .joinTest), (2, .increment none ()),
        (2, .put none () none), (1, .close), (0, .take ()), (0, .finish () false),
        (0, .countDown), (0, .notifyOne none), (0, .takeNullopt), (1, .joinWorker .join 0 []),
        (1, .joined .join)] = some _ := rfl
  have balance := late_submit_balance.2 _ _ (run_reaches ran) (by decide)
  exact ⟨_, _, ran, rfl, balance.2 1 rfl (by simp)⟩

/-- A Submit after Join is refused and leaves the counter at 1: the assertion of
`~StaticThreadPool` fails. -/
theorem late_submit_counted :
    ¬ ∀ (trace : List (Label (Fin 3) Unit)) (s : State (Fin 3) Unit),
      Reaches (step [0]) joinOnly (init [0]) trace s → Quiet s →
        s.plannedWorkCounter.toNat = pending s ∧
        ((∃ j, s.pc j = .stopped) → s.plannedWorkCounter = 0) := by
  intro balanced
  have ran : run (restricted (step [0]) joinOnly) (init [0] : State (Fin 3) Unit)
      [(1, .callJoin), (1, .joinTest), (1, .close), (0, .takeNullopt),
        (1, .joinWorker .join 0 []), (1, .joined .join), (2, .callSubmit none ()),
        (2, .increment none ()), (2, .putRefused none ())] = some _ := rfl
  have balance := balanced _ _ (run_reaches ran) (by decide)
  exact absurd (balance.2 ⟨1, rfl⟩) (by decide)

end ConcurrencyCourse.ThreadPool
