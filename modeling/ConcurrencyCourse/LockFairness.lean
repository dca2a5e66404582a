import ConcurrencyCourse.Fairness
import ConcurrencyCourse.LockOrder

/-!
What threads that lock in the descending order of a rank get under strong fairness. By
induction on the rank every mutex is free again and again: its owner waits only for mutexes
of a lower rank. So no thread waits forever, and each one goes through its script again and
again, operation by operation.
-/

namespace ConcurrencyCourse.LockOrder

open Interleaving Fairness

variable {Thread Lock Act Data α : Type*}

def Label.thread : Label Thread → Thread
  | .round t | .next t => t

def turns (t : Thread) (_ : State Thread Lock Act Data) (label : Label Thread) : Prop :=
  label.thread = t

section Steps
variable [DecidableEq Thread] [DecidableEq Lock] {program : Program Thread Lock Act Data}
  {s after : State Thread Lock Act Data} {t : Thread} {label : Label Thread}

theorem perform_rest {rest : List (Op Lock Act)} {op : Op Lock Act}
    (taken : perform program s t rest op = some after) :
    after.rest = Function.update s.rest t rest := by
  cases op with
  | lock l | unlock l =>
      obtain ⟨_, rfl⟩ := guarded_eq_some.mp taken
      rfl
  | act a =>
      cases taken
      rfl

theorem next_taken {op : Op Lock Act} {rest : List (Op Lock Act)} (here : s.rest t = op :: rest)
    (taken : step program s (.next t) = some after) :
    perform program s t rest op = some after := by
  simpa only [step, here] using taken

theorem rest_elsewhere (taken : step program s label = some after) (other : ¬ turns t s label) :
    after.rest t = s.rest t := by
  cases label with
  | round u =>
      simp only [step] at taken
      split at taken
      · cases taken
        exact s.goto_other (Ne.symm other) _
      · cases taken
  | next u =>
      simp only [step] at taken
      split at taken
      · cases taken
      · rw [perform_rest taken]
        exact Function.update_of_ne (Ne.symm other) ..

theorem owner_elsewhere {l : Lock} (taken : step program s label = some after)
    (other : ¬ turns t s label) (owned : s.owner l = some t) : after.owner l = some t := by
  cases label with
  | round u =>
      simp only [step] at taken
      split at taken
      · cases taken
        exact owned
      · cases taken
  | next u =>
      simp only [step] at taken
      split at taken
      · cases taken
      · rename_i op rest here
        cases op with
        | lock l' =>
            obtain ⟨free, rfl⟩ := guarded_eq_some.mp taken
            exact (owner_other (by simp [free]) (by simpa [turns, Label.thread] using other)
              l).mpr owned
        | unlock l' =>
            obtain ⟨mine, rfl⟩ := guarded_eq_some.mp taken
            exact (owner_other (by simpa [mine, turns, Label.thread] using other) (by simp)
              l).mpr owned
        | act a =>
            cases taken
            exact owned

theorem inside_next {op : Op Lock Act} {rest : List (Op Lock Act)} (here : s.rest t = op :: rest)
    (taken : step program s label = some after) (own : turns t s label) : label = .next t := by
  cases label with
  | round u =>
      cases own
      simp only [Label.thread] at here
      simp [step, here] at taken
  | next u =>
      cases own
      rfl

end Steps

section Fair
variable [DecidableEq Thread] [DecidableEq Lock] [Preorder α]
  {program : Program Thread Lock Act Data} {rank : Lock → α} {needs : Thread → Act → List Lock}
  {data : Data} {e : Execution (step program) (init data)} {t : Thread} {l : Lock}
  {op : Op Lock Act} {rest : List (Op Lock Act)} {n : ℕ}

def Recurs (e : Execution (step program) (init data)) (l : Lock) : Prop :=
  ∀ n, ∃ m, n ≤ m ∧ (e.state m).owner l = none

theorem execution_ordered (wellOrdered : ∀ t, Disciplined rank (needs t) [] (program.script t))
    (n : ℕ) : Ordered program rank needs (e.state n) := by
  obtain ⟨trace, reached⟩ := e.reaches n
  exact reaches_ordered wellOrdered reached

/-- A thread performs its next operation, where the mutex that it may need is free again and
again. Until then it keeps what it owns. -/
theorem performs (wellOrdered : ∀ t, Disciplined rank (needs t) [] (program.script t))
    (fair : e.StronglyFair turns) (frees : ∀ l, op = .lock l → Recurs e l)
    (here : (e.state n).rest t = op :: rest) :
    ∃ m, n ≤ m ∧ (e.state m).rest t = op :: rest ∧
      (∀ l, (e.state n).owner l = some t → (e.state m).owner l = some t) ∧
      e.label m = some (.next t) := by
  have ready (m : ℕ) (there : (e.state m).rest t = op :: rest)
      (free : ∀ l, op = .lock l → (e.state m).owner l = none) :
      Ready (step program) turns t (e.state m) := by
    obtain ⟨_, follows⟩ := execution_ordered wellOrdered m t
    refine ⟨.next t, rfl, follows.goes (by simp [there]) ?_⟩
    -- A thread that is not ready waits for the mutex of its next operation.
    rintro holder ⟨l, _, locks, owned⟩
    cases there.symm.trans locks
    exact absurd ((free l rfl).symm.trans owned) nofun
  have recurs (k : ℕ) : ∃ m, k ≤ m ∧ ((e.state m).rest t = op :: rest →
      Ready (step program) turns t (e.state m)) := by
    cases op with
    | lock l =>
        obtain ⟨m, later, free⟩ := frees l rfl k
        refine ⟨m, later, fun there => ready m there ?_⟩
        rintro _ ⟨⟩
        exact free
    | unlock l => exact ⟨k, le_rfl, fun there => ready k there nofun⟩
    | act a => exact ⟨k, le_rfl, fun there => ready k there nofun⟩
  obtain ⟨m, later, ⟨there, keeps⟩, label, taken, own⟩ := fair.acts t
    (fun s => s.rest t = op :: rest ∧ ∀ l, (e.state n).owner l = some t → s.owner l = some t)
    (fun k => by
      obtain ⟨m, later, able⟩ := recurs k
      exact ⟨m, later, fun waiting => able waiting.1⟩)
    (fun s label after waiting taken other =>
      ⟨(rest_elsewhere taken other).trans waiting.1,
        fun l owned => owner_elsewhere taken other (waiting.2 l owned)⟩)
    ⟨here, fun _ owned => owned⟩
  rw [inside_next there (Execution.takes taken) own] at taken
  exact ⟨m, later, there, keeps, taken⟩

theorem performed {m : ℕ} (there : (e.state m).rest t = op :: rest)
    (taken : e.label m = some (.next t)) :
    perform program (e.state m) t rest op = some (e.state (m + 1)) :=
  next_taken there (Execution.takes taken)

theorem performed_rest {m : ℕ} (there : (e.state m).rest t = op :: rest)
    (taken : e.label m = some (.next t)) : (e.state (m + 1)).rest t = rest := by
  rw [perform_rest (performed there taken)]
  exact Function.update_self ..

theorem unlocks (wellOrdered : ∀ t, Disciplined rank (needs t) [] (program.script t))
    (fair : e.StronglyFair turns) (lower : ∀ l', rank l' < rank l → Recurs e l')
    (owned : (e.state n).owner l = some t) : ∃ m, n ≤ m ∧ (e.state m).owner l = none := by
  -- Along what the owner still has to do: its script unlocks before it ends.
  induction code : (e.state n).rest t generalizing n with
  | nil =>
      obtain ⟨_, follows⟩ := execution_ordered wellOrdered n t
      exact absurd code (follows.inside owned)
  | cons op rest ih =>
      have frees (l' : Lock) (locks : op = .lock l') : Recurs e l' := by
        obtain ⟨_, follows⟩ := execution_ordered wellOrdered n t
        exact lower l' (follows.below (locks ▸ code) owned)
      obtain ⟨m, later, there, keeps, taken⟩ := performs wellOrdered fair frees code
      have moved := performed there taken
      by_cases last : op = .unlock l
      · subst last
        obtain ⟨_, now⟩ := guarded_eq_some.mp moved
        refine ⟨m + 1, by omega, ?_⟩
        rw [← now]
        simp [State.goto, State.setOwner]
      · have still : (e.state (m + 1)).owner l = some t := by
          have before := keeps l owned
          cases op with
          | lock l' =>
              obtain ⟨free, now⟩ := guarded_eq_some.mp moved
              have other : l ≠ l' := by
                rintro rfl
                cases free.symm.trans before
              rw [← now]
              simpa [State.goto, State.setOwner, other] using before
          | unlock l' =>
              obtain ⟨_, now⟩ := guarded_eq_some.mp moved
              have other : l ≠ l' := by
                rintro rfl
                exact last rfl
              rw [← now]
              simpa [State.goto, State.setOwner, other] using before
          | act a =>
              rw [← Option.some.inj moved]
              exact before
        obtain ⟨k, after, free⟩ := ih still (performed_rest there taken)
        exact ⟨k, by omega, free⟩

variable [WellFoundedLT α]

theorem recurs (wellOrdered : ∀ t, Disciplined rank (needs t) [] (program.script t))
    (fair : e.StronglyFair turns) (l : Lock) : Recurs e l := by
  -- From the mutexes of the lowest rank upwards: an owner waits for lower ones only.
  induction level : rank l using WellFoundedLT.induction generalizing l with
  | ind r ih =>
      intro n
      cases owner : (e.state n).owner l with
      | none => exact ⟨n, le_rfl, owner⟩
      | some holder =>
          exact unlocks wellOrdered fair (fun l' below => ih _ (level ▸ below) l' rfl) owner

theorem goes_through (wellOrdered : ∀ t, Disciplined rank (needs t) [] (program.script t))
    (fair : e.StronglyFair turns) (front : List (Op Lock Act))
    (here : (e.state n).rest t = front ++ rest) : ∃ m, n ≤ m ∧ (e.state m).rest t = rest := by
  induction front generalizing n with
  | nil => exact ⟨n, le_rfl, here⟩
  | cons op front ih =>
      obtain ⟨m, later, there, _, taken⟩ :=
        performs wellOrdered fair (fun l _ => recurs wellOrdered fair l) here
      obtain ⟨k, after, arrived⟩ := ih (performed_rest there taken)
      exact ⟨k, by omega, arrived⟩

theorem starts_round (fair : e.StronglyFair turns) (ended : (e.state n).rest t = []) :
    ∃ m, n ≤ m ∧ (e.state m).rest t = program.script t := by
  have able (s : State Thread Lock Act Data) (done : s.rest t = []) :
      Ready (step program) turns t s :=
    ⟨.round t, rfl, by simp [step, done]⟩
  obtain ⟨m, later, there, label, taken, own⟩ := fair.acts t (fun s => s.rest t = [])
    (fun k => ⟨k, le_rfl, able _⟩)
    (fun s label after done taken other => (rest_elsewhere taken other).trans done) ended
  have moved := Execution.takes taken
  refine ⟨m + 1, by omega, ?_⟩
  cases label with
  | round u =>
      cases own
      simp only [Label.thread] at there
      simp only [step, there, Option.some.injEq] at moved
      rw [← moved]
      exact Function.update_self ..
  | next u =>
      cases own
      simp only [Label.thread] at there
      simp [step, there] at moved

/-- Starvation freedom: whatever the thread is at, it performs each operation of its script
again and again. -/
theorem performs_again (wellOrdered : ∀ t, Disciplined rank (needs t) [] (program.script t))
    (fair : e.StronglyFair turns) (part : op :: rest <:+ program.script t) (n : ℕ) :
    ∃ m, n ≤ m ∧ (e.state m).rest t = op :: rest ∧ e.label m = some (.next t) := by
  -- To the end of this round, into the next, and on to the operation.
  obtain ⟨m₁, later₁, ended⟩ := goes_through wellOrdered fair ((e.state n).rest t)
    (List.append_nil _).symm
  obtain ⟨m₂, later₂, started⟩ := starts_round fair ended
  obtain ⟨front, whole⟩ := part
  obtain ⟨m₃, later₃, arrived⟩ := goes_through wellOrdered fair front (started.trans whole.symm)
  obtain ⟨m, later, there, _, taken⟩ :=
    performs wellOrdered fair (fun l _ => recurs wellOrdered fair l) arrived
  exact ⟨m, by omega, there, taken⟩

end Fair

end ConcurrencyCourse.LockOrder
