import ConcurrencyCourse.SemaphoreQueue

/-!
How far any number of Puts and Takes of the semaphore-based queue gets. Where nobody can
go on, the numbers of elements that went in and came out depend on the numbers of calls and
on the capacity only.
-/

namespace ConcurrencyCourse.SemaphoreQueue

open Interleaving Headcount

variable {Thread T : Type}

def callsPut : Label Thread T → Bool
  | (_, .callPut _) => true
  | _ => false

def callsTake : Label Thread T → Bool
  | (_, .callTake) => true
  | _ => false

def calledPuts (trace : List (Label Thread T)) : ℕ := trace.countP callsPut

def calledTakes (trace : List (Label Thread T)) : ℕ := trace.countP callsTake

def Pc.unstored : Pc T → Bool
  | .putAcquireFull _ | .putAcquireMutex _ | .emplaceBack _ => true
  | _ => false

def Pc.untaken : Pc T → Bool
  | .takeAcquireEmpty | .takeAcquireMutex | .front | .popFront _ => true
  | _ => false

section Traffic
variable [Fintype Thread] [DecidableEq Thread] [DecidableEq T] {capacity : UInt64}
  {s after : State Thread T} {t : Thread} {op : Op T} {trace : List (Label Thread T)}

theorem puts_pushed (reached : Reaches step unrestricted (init capacity) trace s) :
    calledPuts trace = (pushed trace).length + headcount Pc.unstored s.pc := by
  induction reached with
  | start =>
      rw [headcount_eq_zero.mpr fun _ => rfl]
      rfl
  | next label _ _ taken ih =>
      obtain ⟨t, op⟩ := label
      have moved := moved Pc.unstored taken
      simp only [calledPuts, pushed, pushes, filterMap_snoc, List.countP_append, List.map_append,
        List.length_append] at ih ⊢
      rw [ih]
      cases op <;> simp [callsPut, pushOf, Op.source, Op.target, Pc.unstored] at moved ⊢ <;> omega

theorem takes_popped (reached : Reaches step unrestricted (init capacity) trace s) :
    calledTakes trace = (popped trace).length + headcount Pc.untaken s.pc := by
  induction reached with
  | start =>
      rw [headcount_eq_zero.mpr fun _ => rfl]
      rfl
  | next label _ _ taken ih =>
      obtain ⟨t, op⟩ := label
      have moved := moved Pc.untaken taken
      simp only [calledTakes, popped, filterMap_snoc, List.countP_append, List.length_append]
        at ih ⊢
      rw [ih]
      cases op <;> simp [callsTake, popOf, Op.source, Op.target, Pc.untaken] at moved ⊢ <;> omega

/-- Where all threads inside are blocked, as many elements came out as there were Takes and
elements for them, and as many went in as there were Puts and places for them. -/
theorem stuck_traffic (positive : 0 < capacity)
    (reached : Reaches step unrestricted (init capacity) trace s) (stuck : Stuck s) :
    (popped trace).length = min (calledTakes trace) (calledPuts trace) ∧
      (pushed trace).length =
        min (calledPuts trace) (calledTakes trace + capacity.toNat) := by
  have inv := inv reached
  have waits := stuck_waits inv stuck
  obtain ⟨permits, content⟩ := stuck_counts inv stuck
  have order := congrArg List.length (popped_pushed reached)
  have puts := puts_pushed reached
  have takes := takes_popped reached
  rw [List.length_append] at order
  have room : 0 < capacity.toNat := by simpa [UInt64.lt_iff_toNat_lt] using positive
  -- Puts that wait find the queue full, Takes that wait find it empty.
  have full (waiting : headcount Pc.unstored s.pc ≠ 0) : s.isFull.toNat = 0 := by
    obtain ⟨u, unstored⟩ := headcount_pos.mp (Nat.pos_of_ne_zero waiting)
    have inside : s.pc u ≠ .outside := by
      intro outside
      rw [outside] at unstored
      cases unstored
    rcases waits u inside with ⟨takes, _⟩ | ⟨_, none'⟩
    · rw [takes] at unstored
      cases unstored
    · rw [none']
      rfl
  have empty (waiting : headcount Pc.untaken s.pc ≠ 0) : s.isEmpty.toNat = 0 := by
    obtain ⟨u, untaken⟩ := headcount_pos.mp (Nat.pos_of_ne_zero waiting)
    have inside : s.pc u ≠ .outside := by
      intro outside
      rw [outside] at untaken
      cases untaken
    rcases waits u inside with ⟨_, none'⟩ | ⟨⟨value, puts⟩, _⟩
    · rw [none']
      rfl
    · rw [puts] at untaken
      cases untaken
  omega

end Traffic

end ConcurrencyCourse.SemaphoreQueue
