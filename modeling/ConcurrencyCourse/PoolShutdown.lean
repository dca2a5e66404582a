import ConcurrencyCourse.PoolJoin

/-!
`StaticThreadPool::Shutdown`. Its Cancel cuts a run in two: what a worker had taken
before runs to its end and is the last thing the worker runs, and nothing is taken
after. The Submits of tasks that still run meet a closed queue, wherever they stand
when Cancel comes.
-/

namespace ConcurrencyCourse.ThreadPool

open Interleaving Headcount BlockingQueue

variable {Thread Task : Type}

def Pc.current : Pc Thread Task → Option Task
  | .executing task => some task
  | .increment parent _ | .put parent _ => parent
  | _ => none

theorem runs_hasTaken {task : Task} [DecidableEq Task] {pc : Pc Thread Task}
    (runs : pc.runs task = true) : pc.hasTaken = true := by
  cases pc with
  | increment parent | put parent => cases parent <;> first | rfl | cases runs
  | _ => first | rfl | cases runs

/-- The whole run, of which `later` follows the Cancel. -/
abbrev cutRun (early : List (Label Thread Task)) (j : Thread) (later : List (Label Thread Task)) :
    List (Label Thread Task) := early ++ (j, .cancel) :: later

theorem cutRun_filterMap {Seen : Type} {early later : List (Label Thread Task)} {j : Thread}
    (seen : Label Thread Task → Option Seen) (silent : seen (j, .cancel) = none) :
    (cutRun early j later).filterMap seen = early.filterMap seen ++ later.filterMap seen := by
  rw [cutRun, List.filterMap_append, List.filterMap_cons_none silent]

theorem cut_started {early later : List (Label Thread Task)} {j : Thread}
    (idle : started later = []) : started (cutRun early j later) = started early := by
  rw [started] at idle
  rw [started, cutRun_filterMap startedTask rfl, idle, List.append_nil, started]

section Cut
variable [DecidableEq Thread]

def finishedBy (worker : Thread) : Label Thread Task → Option Task
  | (t, .finish task _) => if t = worker then some task else none
  | _ => none

def finishes (worker : Thread) (trace : List (Label Thread Task)) : List Task :=
  trace.filterMap (finishedBy worker)

variable [Fintype Thread] [DecidableEq Task] {workers : List Thread}
  {s after cut final : State Thread Task} {t u j worker : Thread} {op : Op Thread Task}
  {trace early later : List (Label Thread Task)}

theorem cancelled_past (reached : Reaches (step workers) unrestricted (init workers) trace s) :
    (∀ label ∈ trace, label.2 ≠ .cancel) ∨ ∃ i, (s.pc i).pastLoop = true := by
  induction reached with
  | start => exact Or.inl (by simp)
  | next label _ _ taken ih =>
      rcases label with ⟨t, op⟩
      rcases ih with before | ⟨i, past⟩
      · by_cases cancels : op = .cancel
        · subst cancels
          exact Or.inr ⟨t, by rw [(own_step taken).2.choose_spec]; rfl⟩
        · apply Or.inl
          intro own member
          rcases List.mem_append.mp member with earlier | last
          · exact before own earlier
          · rw [List.mem_singleton.mp last]
            exact cancels
      · exact Or.inr ⟨i, pastLoop_kept taken past⟩

theorem first_cancel (reached : Reaches (step workers) unrestricted (init workers) trace s)
    (here : s.pc j = .cancel) : ∀ label ∈ trace, label.2 ≠ .cancel := by
  rcases cancelled_past reached with before | ⟨i, past⟩
  · exact before
  · have stops : (s.pc i).stopping = true := by
      cases there : s.pc i <;> rw [there] at past <;> first | rfl | cases past
    have same := stopper_unique reached stops (u := j) (by rw [here]; rfl)
    rw [same, here] at past
    cases past

theorem closing_wakes (taken : step workers s (t, op) = some after)
    (closing : op = .close ∨ op = .cancel) : after.pc u ≠ .parkedTake := by
  rcases closing with rfl | rfl
  all_goals
    rcases guarded_eq_some.mp taken with ⟨_, rfl⟩
    by_cases self : u = t
    · simp [self]
    · simp only [Function.update_of_ne self]
      rcases wakeAll_cases Pc.isParkedTake .take s.pc u with same | ⟨_, awake⟩
      · rw [same]
        intro asleep
        simp [wakeAll, asleep, Pc.isParkedTake] at same
      · simp [awake]

theorem waits_open (taken : step workers s (t, op) = some after)
    (asleep : after.pc u = .parkedTake) :
    s.pc u = .parkedTake ∨ after.tasks.isClosed = false := by
  by_cases self : u = t
  · subst self
    rcases own_step taken with ⟨_, zero, there⟩
    rw [there] at asleep
    cases op with
    | takeWait =>
        rcases guarded_eq_some.mp taken with ⟨⟨_, waits⟩, rfl⟩
        exact Or.inr (UnboundedBlockingQueue.take_waits waits).1
    | callSubmit parent | put parent | putRefused parent => cases parent <;> cases asleep
    | joined stop => cases stop <;> cases asleep
    | _ => cases zero <;> cases asleep
  · rcases other_step self taken with same | ⟨before, _⟩ | ⟨_, awake⟩
    · exact Or.inl (same ▸ asleep)
    · exact Or.inl before
    · simp [awake] at asleep

theorem closed_awake (reached : Reaches (step workers) unrestricted (init workers) trace s)
    (closed : s.tasks.isClosed = true) (u : Thread) : s.pc u ≠ .parkedTake := by
  induction reached with
  | start => cases closed
  | next label _ _ taken ih =>
      rcases label with ⟨t, op⟩
      by_cases cancels : op = .cancel
      · exact closing_wakes taken (Or.inr cancels)
      · rcases closes taken cancels closed with before | closing
        · intro asleep
          rcases waits_open taken asleep with still | open'
          · exact ih before still
          · simp [closed] at open'
        · exact closing_wakes taken (Or.inl closing)

theorem current_step (drained : s.tasks.queue = [])
    (taken : step workers s (t, op) = some after) (worker : Thread) :
    (finishedBy worker (t, op)).toList ++ (after.pc worker).current.toList =
      (s.pc worker).current.toList := by
  by_cases self : worker = t
  · subst self
    rcases own_step taken with ⟨here, zero, there⟩
    rw [here, there]
    cases op with
    | take task =>
        rcases guarded_eq_some.mp taken with ⟨⟨_, found⟩, _⟩
        rcases UnboundedBlockingQueue.take_value found with ⟨rest, content, _⟩
        simp [drained] at content
    | callSubmit parent | put parent | putRefused parent => cases parent <;> rfl
    | joined stop => cases stop <;> rfl
    | finish task threw => simp [finishedBy, Op.source, Op.target, Pc.current]
    | _ => cases zero <;> rfl
  · have silent : finishedBy worker (t, op) = none := by
      cases op <;> simp [finishedBy, Ne.symm self]
    rw [silent]
    rcases other_step self taken with same | ⟨asleep, awake⟩ | ⟨asleep, awake⟩
    · rw [same]
      rfl
    · rw [asleep, awake]
      rfl
    · rw [asleep, awake]
      rfl

theorem ended_run (closed : cut.tasks.isClosed = true) (drained : cut.tasks.queue = [])
    (onward : Reaches (step workers) unrestricted cut later final) :
    (final.tasks.isClosed = true ∧ final.tasks.queue = []) ∧ started later = [] ∧
      ∀ worker, finishes worker later ++ (final.pc worker).current.toList =
        (cut.pc worker).current.toList := by
  induction onward with
  | start => exact ⟨⟨closed, drained⟩, rfl, fun _ => rfl⟩
  | @next later s after label _ _ taken ih =>
      rcases label with ⟨t, op⟩
      rcases ih with ⟨⟨shut, empty⟩, quiet, own⟩
      refine ⟨closed_empty_kept taken shut empty, ?_, ?_⟩
      · have idle : startedTask (t, op) = none := by
          cases op with
          | take task =>
              rcases guarded_eq_some.mp taken with ⟨⟨_, found⟩, _⟩
              rcases UnboundedBlockingQueue.take_value found with ⟨rest, content, _⟩
              simp [empty] at content
          | _ => rfl
        rw [started, filterMap_snoc, idle, ← started, quiet]
        rfl
      · intro worker
        rw [finishes, filterMap_snoc, List.append_assoc, current_step empty taken worker,
          ← finishes]
        exact own worker

/-! The way out of Work, once the queue is closed and empty. -/

abbrev Leaves (workers : List Thread) (worker : Thread) : State Thread Task → Prop :=
  FinishesAlone (step workers) (fun label => label.1 = worker) fun s => s.pc worker = .exited

theorem leaves_take (closed : s.tasks.isClosed = true) (drained : s.tasks.queue = [])
    (here : s.pc worker = .take) : Leaves workers worker s := by
  have ended : s.tasks.take.1 = .nullopt := by
    simp [UnboundedBlockingQueue.take, drained, closed]
  apply FinishesAlone.goes
  · exact ⟨(worker, .takeNullopt), rfl, guarded_isSome.mpr ⟨here, ended⟩⟩
  · rintro ⟨t, op⟩ after rfl taken
    have source := (own_step taken).1
    rw [here] at source
    cases op with
    | takeNullopt =>
        rcases guarded_eq_some.mp taken with ⟨_, rfl⟩
        exact .finished (by simp)
    | take task =>
        rcases guarded_eq_some.mp taken with ⟨⟨_, found⟩, _⟩
        simp [ended] at found
    | takeWait =>
        rcases guarded_eq_some.mp taken with ⟨⟨_, waits⟩, _⟩
        simp [ended] at waits
    | callSubmit parent => cases parent <;> cases source
    | _ => cases source

theorem leaves_notify (closed : s.tasks.isClosed = true) (drained : s.tasks.queue = [])
    (here : s.pc worker = .notifyOne) : Leaves workers worker s := by
  apply FinishesAlone.goes
  · rcases wakes_exists Pc.isFutexParked s.pc with ⟨woken, wakes⟩
    exact ⟨(worker, .notifyOne woken), rfl, guarded_isSome.mpr ⟨here, wakes⟩⟩
  · rintro ⟨t, op⟩ after rfl taken
    have source := (own_step taken).1
    rw [here] at source
    rcases closed_empty_kept taken closed drained with ⟨shut, empty⟩
    cases op with
    | notifyOne woken =>
        apply leaves_take shut empty
        rcases guarded_eq_some.mp taken with ⟨_, rfl⟩
        simp
    | callSubmit parent => cases parent <;> cases source
    | _ => cases source

theorem leaves_countDown (closed : s.tasks.isClosed = true) (drained : s.tasks.queue = [])
    (here : s.pc worker = .countDown) : Leaves workers worker s := by
  apply FinishesAlone.goes
  · exact ⟨(worker, .countDown), rfl, guarded_isSome.mpr here⟩
  · rintro ⟨t, op⟩ after rfl taken
    rcases own_step taken with ⟨source, zero, there⟩
    rw [here] at source
    rcases closed_empty_kept taken closed drained with ⟨shut, empty⟩
    cases op with
    | countDown =>
        cases zero with
        | true => exact leaves_notify shut empty there
        | false => exact leaves_take shut empty there
    | callSubmit parent => cases parent <;> cases source
    | _ => cases source

theorem worker_working (reached : Reaches (step workers) unrestricted (init workers) trace s)
    (member : worker ∈ workers) : (s.pc worker).working = true := by
  induction reached with
  | start => simp [init, member, Pc.working]
  | next label _ _ taken ih =>
      rcases label with ⟨t, op⟩
      have settled : Settled (Pc.working : Pc Thread Task → Bool) := ⟨rfl, rfl⟩
      rcases settled.cases taken worker with same | ⟨_, here, zero, there⟩
      · rw [same]
        exact ih
      · rw [here] at ih
        rw [there]
        cases op with
        | callSubmit parent | increment parent | put parent | putRefused parent =>
            cases parent <;> first | rfl | cases ih
        | joined stop => cases ih
        | _ => cases zero <;> first | rfl | cases ih

theorem leaves_idle (reached : Reaches (step workers) unrestricted (init workers) trace s)
    (closed : s.tasks.isClosed = true) (drained : s.tasks.queue = []) (member : worker ∈ workers)
    (idle : (s.pc worker).current = none) : Leaves workers worker s := by
  have works := worker_working reached member
  have awake := closed_awake reached closed worker
  cases here : s.pc worker with
  | take => exact leaves_take closed drained here
  | notifyOne => exact leaves_notify closed drained here
  | countDown => exact leaves_countDown closed drained here
  | exited => exact .finished here
  | parkedTake => exact absurd here awake
  | executing task =>
      rw [here] at idle
      cases idle
  | increment parent task | put parent task =>
      rw [here] at idle works
      cases parent with
      | none => cases works
      | some parent => cases idle
  | _ =>
      rw [here] at works
      cases works

/-! What Shutdown leaves behind. -/

def insideOnly (label : Label Thread Task) : Prop := ∀ task, label.2 ≠ .callSubmit none task

theorem outside_run (quiet : ∀ u, (cut.pc u).outsideSubmit = false)
    (inside : ∀ label ∈ later, insideOnly label)
    (onward : Reaches (step workers) unrestricted cut later final) (u : Thread) :
    (final.pc u).outsideSubmit = false := by
  induction onward with
  | start => exact quiet u
  | next label _ _ taken ih =>
      rcases label with ⟨t, op⟩
      exact outside_kept (ih fun own member => inside own (List.mem_append_left _ member))
        (inside (t, op) (by simp)) taken

theorem stopped_counter (reached : Reaches (step workers) unrestricted (init workers) trace s)
    (quiet : ∀ u, (s.pc u).outsideSubmit = false) (stopped : s.pc j = .stopped)
    (taken : step workers s (t, op) = some after) :
    after.plannedWorkCounter = s.plannedWorkCounter := by
  have idle := stopped_idle reached stopped t
  have gone : ∀ w ∈ workers, s.pc w = .exited := by
    intro w member
    rcases joined_exited reached j w member with unjoined | gone
    · rw [stopped] at unjoined
      cases unjoined
    · exact gone
  have outside := quiet t
  rw [(own_step taken).1] at idle outside
  apply counter_kept taken
  refine ⟨?_, ?_, ?_⟩
  · rintro parent task rfl
    cases parent with
    | none => cases outside
    | some parent => cases idle
  · rintro rfl
    cases idle
  · rintro rfl
    -- The thread that stores is the one that stopped.
    have same := stopper_unique reached (t := j) (u := t) (by rw [stopped]; rfl)
      (by rw [(own_step taken).1]; rfl)
    have here := (own_step taken).1
    rw [← same, stopped] at here
    cases here

theorem shuttingDown_step (shutting : (s.pc j).shuttingDown = true)
    (taken : step workers s (t, op) = some after) :
    (after.pc j).shuttingDown = true ∨ after.pc j = .stopped ∧ after.plannedWorkCounter = 0 := by
  by_cases self : j = t
  · subst self
    rcases own_step taken with ⟨here, zero, there⟩
    rw [here] at shutting
    rw [there]
    cases op with
    | store =>
        rcases guarded_eq_some.mp taken with ⟨_, rfl⟩
        exact Or.inr ⟨rfl, rfl⟩
    | callSubmit parent => cases parent <;> cases shutting
    | joined stop | joinWorker stop => cases stop <;> first | exact Or.inl rfl | cases shutting
    | _ => first | exact Or.inl rfl | cases shutting
  · apply Or.inl
    rcases other_step self taken with same | ⟨asleep, _⟩ | ⟨asleep, _⟩
    · rw [same]
      exact shutting
    · rw [asleep] at shutting
      cases shutting
    · rw [asleep] at shutting
      cases shutting

theorem stopped_kept (stopped : s.pc j = .stopped) (taken : step workers s (t, op) = some after) :
    after.pc j = .stopped := by
  by_cases self : j = t
  · subst self
    have here := (own_step taken).1
    rw [stopped] at here
    cases op with
    | callSubmit parent => cases parent <;> cases here
    | _ => cases here
  · rcases other_step self taken with same | ⟨asleep, _⟩ | ⟨asleep, _⟩
    · rw [same, stopped]
    · simp [stopped] at asleep
    · simp [stopped] at asleep

theorem shutdown_zero (reached : Reaches (step workers) unrestricted (init workers) early cut)
    (shutting : (cut.pc j).shuttingDown = true) (quiet : ∀ u, (cut.pc u).outsideSubmit = false)
    (onward : Reaches (step workers) unrestricted cut later final)
    (inside : ∀ label ∈ later, insideOnly label) :
    (final.pc j).shuttingDown = true ∨
      final.pc j = .stopped ∧ final.plannedWorkCounter = 0 := by
  induction onward with
  | start => exact Or.inl shutting
  | next label onward _ taken ih =>
      rcases label with ⟨t, op⟩
      have before := fun own member => inside own (List.mem_append_left _ member)
      rcases ih before with still | ⟨stopped, zero⟩
      · exact shuttingDown_step still taken
      · have same := stopped_counter (reached.append onward) (outside_run quiet before onward)
          stopped taken
        exact Or.inr ⟨stopped_kept stopped taken, by rw [same, zero]⟩

/-- What Shutdown finds at its Cancel is a queue of accepted tasks that nobody has
started; it leaves a queue that is closed and empty. -/
theorem cancel_cut (reached : Reaches (step workers) unrestricted (init workers) early s)
    (cancelled : step workers s (j, .cancel) = some cut) :
    accepted early = started early ++ s.tasks.queue ∧ cut.tasks.isClosed = true ∧
      cut.tasks.queue = [] ∧ (cut.pc j).shuttingDown = true := by
  have here := (own_step cancelled).1
  constructor
  · exact accepted_until_cancel reached (first_cancel reached here)
  · rcases guarded_eq_some.mp cancelled with ⟨_, rfl⟩
    exact ⟨rfl, rfl, by simp [Pc.shuttingDown]⟩

theorem cut_reached (reached : Reaches (step workers) unrestricted (init workers) early s)
    (cancelled : step workers s (j, .cancel) = some cut)
    (onward : Reaches (step workers) unrestricted cut later final) :
    Reaches (step workers) unrestricted (init workers) (cutRun early j later) final :=
  reached.append (.cons _ trivial cancelled onward)

theorem cut_never_started (reached : Reaches (step workers) unrestricted (init workers) early s)
    (order : accepted early = started early ++ s.tasks.queue) (idle : started later = [])
    (distinct : (submitted (cutRun early j later)).Nodup) {task : Task}
    (late : task ∈ s.tasks.queue ∨ task ∈ submitted later) :
    task ∉ started (cutRun early j later) := by
  rw [cut_started idle]
  intro member
  have once := List.nodup_iff_count_le_one.mp distinct task
  have total := submitted_count reached task
  have ran := List.count_pos_iff.mpr member
  have split : submitted (cutRun early j later) = submitted early ++ submitted later :=
    cutRun_filterMap submittedTask rfl
  rw [split, List.count_append] at once
  rw [order, List.count_append] at total
  rcases late with queued | submitted'
  · have more := List.count_pos_iff.mpr queued
    omega
  · have more := List.count_pos_iff.mpr submitted'
    omega

theorem stopped_runs (reached : Reaches (step workers) unrestricted (init workers) trace s)
    (stopped : s.pc j = .stopped) (task : Task) : headcount (Pc.runs task) s.pc = 0 := by
  apply headcount_eq_zero.mpr
  intro u
  cases runs : (s.pc u).runs task with
  | false => rfl
  | true => exact (stopped_idle reached stopped u).symm.trans (runs_hasTaken runs) |>.symm

/-- Shutdown stops the pool cleanly, wherever its Cancel cuts the run. The tasks queued
then were accepted and not started, and no task is started any more: so none of them
and none submitted later ever is, where tasks are told apart. Every task taken before
is finished once or still runs. A worker finishes at most the task it had in hand, and
once it runs none it leaves Work. When Shutdown has returned, the queue is empty, every
worker has left, every started task is finished, and the counter is 0 unless a Submit
from outside was under way at the Cancel or has started since. -/
theorem shutdown_stops (reached : Reaches (step workers) unrestricted (init workers) early s)
    (cancelled : step workers s (j, .cancel) = some cut)
    (onward : Reaches (step workers) unrestricted cut later final) :
    (accepted early = started early ++ s.tasks.queue ∧ started later = [] ∧
      ((submitted (cutRun early j later)).Nodup →
        ∀ task, task ∈ s.tasks.queue ∨ task ∈ submitted later →
          task ∉ started (cutRun early j later))) ∧
    (∀ task, (started early).count task =
      (finished (cutRun early j later)).count task + headcount (Pc.runs task) final.pc) ∧
    (∀ worker ∈ workers, finishes worker later ++ (final.pc worker).current.toList =
        (cut.pc worker).current.toList ∧
      ((final.pc worker).current = none → Leaves workers worker final)) ∧
    (final.pc j = .stopped → final.tasks.queue = [] ∧
      (∀ worker ∈ workers, final.pc worker = .exited) ∧
      (∀ task, (started early).count task = (finished (cutRun early j later)).count task) ∧
      ((∀ u, (cut.pc u).outsideSubmit = false) → (∀ label ∈ later, insideOnly label) →
        final.plannedWorkCounter = 0)) := by
  have whole := cut_reached reached cancelled onward
  have atCut : Reaches (step workers) unrestricted (init workers) (early ++ [(j, .cancel)]) cut :=
    .next _ reached trivial cancelled
  rcases cancel_cut reached cancelled with ⟨order, closed, drained, shutting⟩
  rcases ended_run closed drained onward with ⟨⟨shut, empty⟩, idle, own⟩
  have same : started (cutRun early j later) = started early := cut_started idle
  have counted := fun task => same ▸ started_count whole task
  refine ⟨⟨order, idle, fun distinct task late => ?_⟩, counted, ?_, ?_⟩
  · exact cut_never_started reached order idle distinct late
  · intro worker member
    exact ⟨own worker, leaves_idle whole shut empty member⟩
  · intro stopped
    refine ⟨empty, ?_, ?_, ?_⟩
    · intro worker member
      rcases joined_exited whole j worker member with unjoined | gone
      · rw [stopped] at unjoined
        cases unjoined
      · exact gone
    · intro task
      rw [counted task, stopped_runs whole stopped task]
      rfl
    · intro quiet inside
      rcases shutdown_zero atCut shutting quiet onward inside with still | ⟨_, zero⟩
      · rw [stopped] at still
        cases still
      · exact zero

end Cut

/-- Thread 2 shuts the pool down while worker 0 runs task 1, which has counted its task 3
and not yet put it, and task 2 is queued. -/
theorem shutdown_stops_nested : ∃ (early later : List (Label (Fin 3) ℕ))
    (s final : State (Fin 3) ℕ), run (step [0]) (init [0]) early = some s ∧
      run (step [0]) (init [0]) (cutRun early 2 later) = some final ∧
      s.tasks.queue = [2] ∧ 2 ∉ started (cutRun early 2 later) ∧
      3 ∉ started (cutRun early 2 later) ∧ final.tasks.queue = [] ∧
      final.plannedWorkCounter = 0 := by
  have ran : run (step [0]) (init [0] : State (Fin 3) ℕ)
      [(1, .callSubmit none 1), (1, .increment none 1), (1, .put none 1 none), (0, .take 1),
        (1, .callSubmit none 2), (1, .increment none 2), (1, .put none 2 none),
        (0, .callSubmit (some 1) 3), (2, .callShutdown), (0, .increment (some 1) 3)] =
      some _ := rfl
  have stops := fun (later : List (Label (Fin 3) ℕ)) (final : State (Fin 3) ℕ)
    (onward : Reaches (step [0]) unrestricted _ later final) =>
      shutdown_stops (j := 2) (run_free ran) rfl onward
  rcases stops [(0, .putRefused (some 1) 3), (0, .finish 1 false), (0, .countDown),
    (0, .takeNullopt), (2, .joinWorker .shutdown 0 []), (2, .joined .shutdown), (2, .store)] _
    (run_free rfl) with ⟨⟨_, _, never⟩, _, _, returned⟩
  rcases returned rfl with ⟨empty, _, _, zero⟩
  refine ⟨_, _, _, _, ran, rfl, rfl, never (by decide) 2 (Or.inl (by decide)),
    by decide, empty, zero (by decide) ?_⟩
  simp [insideOnly]

end ConcurrencyCourse.ThreadPool
