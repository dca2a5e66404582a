import ConcurrencyCourse.PoolShutdown

/-!
A pool in which nobody can go on. Its workers have left Work or wait for a task that is not
there, so every task that was started is finished; whoever stops the pool has returned or
sleeps on `planned_work_counter_`.
-/

namespace ConcurrencyCourse.ThreadPool

open Interleaving Headcount BlockingQueue

variable {Thread Task : Type}

/-- A thread at this point waits for something that has not happened. -/
def Rests (s : State Thread Task) : Pc Thread Task → Prop
  | .outside | .exited | .futexParked | .stopped => True
  | .take => s.tasks.take.1 = .waits
  | .joining _ (worker :: _) => s.pc worker ≠ .exited
  | _ => False

def Resting (s : State Thread Task) : Prop := ∀ u, Rests s (s.pc u)

def Pc.closing : Pc Thread Task → Bool
  | .joining _ _ | .store | .stopped => true
  | _ => false

def Pc.joins : Pc Thread Task → List Thread
  | .joining _ rest => rest
  | _ => []

section Rest
variable [DecidableEq Thread] [Fintype Thread] [DecidableEq Task] {workers : List Thread}
  {s after : State Thread Task} {t u : Thread} {op : Op Thread Task}
  {trace : List (Label Thread Task)}

theorem closed_kept (taken : step workers s (t, op) = some after)
    (closed : s.tasks.isClosed = true) : after.tasks.isClosed = true := by
  cases op with
  | put parent task woken =>
      rcases guarded_eq_some.mp taken with ⟨⟨_, accepted, _⟩, _⟩
      simp [UnboundedBlockingQueue.put_true.mp accepted] at closed
  | putRefused parent task =>
      rcases guarded_eq_some.mp taken with ⟨⟨_, refuses⟩, rfl⟩
      simpa [(UnboundedBlockingQueue.put_refuses refuses).2] using closed
  | take task =>
      rcases guarded_eq_some.mp taken with ⟨⟨_, found⟩, rfl⟩
      rcases UnboundedBlockingQueue.take_value found with ⟨rest, _, left⟩
      rw [left]
      exact closed
  | close | cancel =>
      rcases guarded_eq_some.mp taken with ⟨_, rfl⟩
      rfl
  | _ =>
      rcases guarded_eq_some.mp taken with ⟨_, rfl⟩
      exact closed

theorem closing_closed (reached : Reaches (step workers) unrestricted (init workers) trace s) :
    ∀ j, (s.pc j).closing = true → s.tasks.isClosed = true := by
  induction reached with
  | start =>
      intro j closing
      by_cases worker : j ∈ workers <;> simp [init, worker, Pc.closing] at closing
  | next label _ _ taken ih =>
      intro j closing
      obtain ⟨t, op⟩ := label
      have settled : Settled (Pc.closing : Pc Thread Task → Bool) := ⟨rfl, rfl⟩
      rcases settled.cases taken j with same | ⟨rfl, here, zero, there⟩
      · exact closed_kept taken (ih j (same ▸ closing))
      · rw [there] at closing
        have before := ih j
        rw [here] at before
        cases op with
        | close | cancel =>
            rcases guarded_eq_some.mp taken with ⟨_, rfl⟩
            rfl
        -- These come after Close or Cancel in the same call.
        | joinWorker | joined | store => exact closed_kept taken (before rfl)
        | callSubmit parent | put parent | putRefused parent => cases parent <;> cases closing
        | _ => cases zero <;> cases closing

theorem joins_workers (reached : Reaches (step workers) unrestricted (init workers) trace s) :
    ∀ j, ∀ w ∈ (s.pc j).joins, w ∈ workers := by
  induction reached with
  | start =>
      intro j w joins
      by_cases worker : j ∈ workers <;> simp [init, worker, Pc.joins] at joins
  | next label _ _ taken ih =>
      intro j w joins
      obtain ⟨t, op⟩ := label
      by_cases self : j = t
      · subst self
        obtain ⟨here, zero, there⟩ := own_step taken
        rw [there] at joins
        have before := ih j w
        rw [here] at before
        cases op with
        | close | cancel => exact joins
        | joinWorker stop worker rest => exact before (List.mem_cons_of_mem _ joins)
        | callSubmit parent | put parent | putRefused parent => cases parent <;> cases joins
        | joined stop => cases stop <;> cases joins
        | _ => cases zero <;> cases joins
      · rcases other_step self taken with same | ⟨_, awake⟩ | ⟨_, awake⟩
        · exact ih j w (same ▸ joins)
        · rw [awake] at joins
          cases joins
        · rw [awake] at joins
          cases joins

theorem resting_worker (reached : Reaches (step workers) unrestricted (init workers) trace s)
    (resting : Resting s) {w : Thread} (member : w ∈ workers) :
    s.pc w = .exited ∨ s.pc w = .take ∧ s.tasks.take.1 = .waits := by
  have works := worker_working reached member
  have rests := resting w
  cases here : s.pc w with
  | exited => exact .inl rfl
  | take =>
      rw [here] at rests
      exact .inr ⟨rfl, rests⟩
  -- Not places of a worker.
  | outside | futexParked | stopped | joining =>
      rw [here] at works
      cases works
  | _ =>
      rw [here] at rests
      cases rests

theorem resting_drained (reached : Reaches (step workers) unrestricted (init workers) trace s)
    (resting : Resting s) {w : Thread} (member : w ∈ workers) : Drained s := by
  constructor
  -- A worker that exited or waits has found the queue empty.
  · rcases resting_worker reached resting member with gone | ⟨_, waits⟩
    · exact (exited_empty reached gone).2
    · exact (UnboundedBlockingQueue.take_waits waits).2
  · intro u
    have rests := resting u
    cases here : s.pc u with
    | outside | exited | take | futexParked | stopped | joining => exact ⟨rfl, rfl⟩
    | _ =>
        rw [here] at rests
        cases rests

theorem resting_finished (reached : Reaches (step workers) unrestricted (init workers) trace s)
    (resting : Resting s) {w : Thread} (member : w ∈ workers) :
    (started trace).Perm (finished trace) ∧
      ((∀ label ∈ trace, label.2 ≠ .callShutdown) →
        (submitted trace).Perm (finished trace ++ refused trace)) := by
  have drained := resting_drained reached resting member
  have runs (task : Task) : (started trace).count task = (finished trace).count task := by
    rw [started_count reached task, drained.runs task]
    rfl
  refine ⟨List.perm_iff_count.mpr runs, fun kept => List.perm_iff_count.mpr fun task => ?_⟩
  have joins : Reaches (step workers) joinOnly (init workers) trace s :=
    (reached.admitting kept).weaken fun _ _ both => both.2
  have order := accepted_in_order joins
  rw [drained.1, List.append_nil] at order
  rw [submitted_count reached task, drained.submits task, order, List.count_append, runs task]
  rfl

theorem resting_stopper (reached : Reaches (step workers) unrestricted (init workers) trace s)
    (resting : Resting s) (j : Thread) (stops : (s.pc j).stopping = true) :
    s.pc j = .stopped ∨ s.pc j = .futexParked := by
  have rests := resting j
  cases here : s.pc j with
  | stopped => exact .inl rfl
  | futexParked => exact .inr rfl
  | joining stop rest =>
      exfalso
      rw [here] at rests
      cases rest with
      | nil => cases rests
      -- The worker it joins has exited, or would be waiting at a closed queue.
      | cons worker rest =>
          have member := joins_workers reached j worker (by rw [here]; exact List.mem_cons_self)
          have closed := closing_closed reached j (by rw [here]; rfl)
          rcases resting_worker reached resting member with gone | ⟨_, waits⟩
          · exact rests gone
          · cases closed.symm.trans (UnboundedBlockingQueue.take_waits waits).1
  | outside | exited | take =>
      rw [here] at stops
      cases stops
  | _ =>
      rw [here] at rests
      cases rests

end Rest
end ConcurrencyCourse.ThreadPool
