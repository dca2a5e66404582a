import Mathlib.Data.List.Basic

/-!
The critical sections of `tp::UnboundedBlockingQueue`
(tasks/condvar/thread-pool/tp/blocking_queue.hpp) as functions on what `mutex_`
guards. Who sleeps on `is_empty_` and whom a notification wakes is the business of
the machine that calls them.
-/

namespace ConcurrencyCourse.BlockingQueue

structure UnboundedBlockingQueue (T : Type) where
  isClosed : Bool
  queue : List T

variable {T : Type}

def empty : UnboundedBlockingQueue T := { isClosed := false, queue := [] }

namespace UnboundedBlockingQueue

def put (tasks : UnboundedBlockingQueue T) (value : T) : UnboundedBlockingQueue T × Bool :=
  if !tasks.isClosed then ({ tasks with queue := tasks.queue ++ [value] }, true)
  else (tasks, false)

end UnboundedBlockingQueue

/-- One pass of Take under the mutex: the loop condition holds and it waits, or it
returns. -/
inductive Taken (T : Type) where
  | waits
  | nullopt
  | value (result : T)
  deriving DecidableEq

namespace UnboundedBlockingQueue

def take (tasks : UnboundedBlockingQueue T) : Taken T × UnboundedBlockingQueue T :=
  match tasks.queue with
  | [] => (if !tasks.isClosed then .waits else .nullopt, tasks)
  | result :: rest => (.value result, { tasks with queue := rest })

def closeImpl (clear : Bool) (tasks : UnboundedBlockingQueue T) : UnboundedBlockingQueue T :=
  { isClosed := true, queue := if clear then [] else tasks.queue }

def close : UnboundedBlockingQueue T → UnboundedBlockingQueue T := closeImpl false

def cancel : UnboundedBlockingQueue T → UnboundedBlockingQueue T := closeImpl true

variable {tasks : UnboundedBlockingQueue T} {value : T}

theorem put_true : (tasks.put value).2 = true ↔ tasks.isClosed = false := by
  cases closed : tasks.isClosed <;> simp [put, closed]

theorem put_accepts (accepted : (tasks.put value).2 = true) :
    (tasks.put value).1 = { tasks with queue := tasks.queue ++ [value] } := by
  simp [put, put_true.mp accepted]

theorem put_refuses (refused : (tasks.put value).2 = false) :
    tasks.isClosed = true ∧ (tasks.put value).1 = tasks := by
  cases closed : tasks.isClosed <;> simp [put, closed] at refused ⊢

theorem take_value (taken : tasks.take.1 = .value value) :
    ∃ rest, tasks.queue = value :: rest ∧ tasks.take.2 = { tasks with queue := rest } := by
  cases content : tasks.queue with
  | nil => cases closed : tasks.isClosed <;> simp [take, content, closed] at taken
  | cons front rest =>
      simp only [take, content, Taken.value.injEq] at taken
      exact ⟨rest, by rw [taken], by simp [take, content]⟩

theorem take_nullopt (ended : tasks.take.1 = .nullopt) :
    tasks.isClosed = true ∧ tasks.queue = [] := by
  cases content : tasks.queue with
  | nil => cases closed : tasks.isClosed <;> simp [take, content, closed] at ended ⊢
  | cons front rest => simp [take, content] at ended

theorem take_drained (drained : tasks.queue = []) : tasks.take.2 = tasks := by
  simp [take, drained]

theorem take_waits (waits : tasks.take.1 = .waits) :
    tasks.isClosed = false ∧ tasks.queue = [] := by
  cases content : tasks.queue with
  | nil => cases closed : tasks.isClosed <;> simp [take, content, closed] at waits ⊢
  | cons front rest => simp [take, content] at waits

end UnboundedBlockingQueue
end ConcurrencyCourse.BlockingQueue
