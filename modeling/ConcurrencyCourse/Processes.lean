import ConcurrencyCourse.Interleaving
import Mathlib.Algebra.BigOperators.Group.Finset.Basic
import Mathlib.Algebra.BigOperators.Group.List.Basic

/-!
Sequential processes that start each other. A process is at one point of its code and
moves whenever it likes; it shares nothing with the others. What all the processes give
along a run is what the code they were started with is worth, however they interleave.
-/

namespace ConcurrencyCourse.Processes

open Interleaving

variable {Id K M : Type*}

inductive Action (K : Type*) where
  | step (rest : K)
  | start (routine rest : K)
  | finish

inductive Process (K : Type*) where
  | unborn
  | running (k : K)
  | finished

inductive Label (Id K : Type*) where
  | begins (id : Id) (routine : K)
  | steps (id : Id) (rest : K)
  | starts (id child : Id) (routine rest : K)
  | finishes (id : Id)

def Label.action : Label Id K → Option (Action K)
  | begins _ _ => none
  | steps _ rest => some (.step rest)
  | starts _ _ routine rest => some (.start routine rest)
  | finishes _ => some .finish

def init (_ : Id) : Process K :=
  .unborn

section Machine
variable [DecidableEq Id]

def step (does : K → Action K → Bool) (p : Id → Process K) :
    Label Id K → Option (Id → Process K)
  | .begins id routine =>
      match p id with
      | .unborn => some (Function.update p id (.running routine))
      | _ => none
  | .steps id rest =>
      match p id with
      | .running k => guarded (does k (.step rest) = true) (Function.update p id (.running rest))
      | _ => none
  | .starts id child routine rest =>
      match p id, p child with
      | .running k, .unborn =>
          guarded (does k (.start routine rest) = true)
            (Function.update (Function.update p id (.running rest)) child (.running routine))
      | _, _ => none
  | .finishes id =>
      match p id with
      | .running k => guarded (does k .finish = true) (Function.update p id .finished)
      | _ => none

end Machine

section Worth
variable [AddCommMonoid M] {does : K → Action K → Bool} {worth : K → M} {gives : Action K → M}

/-- What is left of a process is worth what its next action gives, with what is left
after it and what it starts. -/
structure Balanced (does : K → Action K → Bool) (worth : K → M) (gives : Action K → M) :
    Prop where
  step : ∀ k rest, does k (.step rest) = true → worth k = gives (.step rest) + worth rest
  start : ∀ k routine rest, does k (.start routine rest) = true →
    worth k = gives (.start routine rest) + (worth rest + worth routine)
  finish : ∀ k, does k .finish = true → worth k = gives .finish

def Process.value (worth : K → M) : Process K → M
  | unborn | finished => 0
  | running k => worth k

@[simp] theorem Process.value_unborn : (unborn : Process K).value worth = 0 := rfl

@[simp] theorem Process.value_running (k : K) : (running k).value worth = worth k := rfl

@[simp] theorem Process.value_finished : (finished : Process K).value worth = 0 := rfl

def Label.given (gives : Action K → M) (label : Label Id K) : M :=
  (label.action.map gives).getD 0

def Label.brought (worth : K → M) : Label Id K → M
  | begins _ routine => worth routine
  | _ => 0

variable [DecidableEq Id] {p p' : Id → Process K} {living : Finset Id}

/-- The processes of a run are those of a finite set, and together they are worth what
is left to give. -/
structure Accounts (worth : K → M) (p : Id → Process K) (living : Finset Id) (left : M) :
    Prop where
  members : ∀ id, id ∈ living ↔ p id ≠ .unborn
  total : ∑ id ∈ living, (p id).value worth = left

theorem sum_moved {id : Id} (inside : id ∈ living) (q : Process K) :
    ∑ other ∈ living, (Function.update p id q other).value worth =
      q.value worth + ∑ other ∈ living.erase id, (p other).value worth := by
  rw [← Finset.add_sum_erase living _ inside, Function.update_self]
  congr 1
  refine Finset.sum_congr rfl fun other member => ?_
  rw [Function.update_of_ne (Finset.ne_of_mem_erase member)]

theorem sum_born {id : Id} (outside : id ∉ living) (q : Process K) :
    ∑ other ∈ insert id living, (Function.update p id q other).value worth =
      q.value worth + ∑ other ∈ living, (p other).value worth := by
  rw [sum_moved (Finset.mem_insert_self id living), Finset.erase_insert outside]

theorem mem_moved {id : Id} (alive : p id ≠ .unborn) {q : Process K} (lives : q ≠ .unborn)
    (members : ∀ other, other ∈ living ↔ p other ≠ .unborn) (other : Id) :
    other ∈ living ↔ Function.update p id q other ≠ .unborn := by
  by_cases same : other = id
  · subst same
    simp [members, alive, lives]
  · simp [members, same]

theorem mem_born {id : Id} {q : Process K} (lives : q ≠ .unborn)
    (members : ∀ other, other ∈ living ↔ p other ≠ .unborn) (other : Id) :
    other ∈ insert id living ↔ Function.update p id q other ≠ .unborn := by
  by_cases same : other = id
  · subst same
    simp [lives]
  · simp [members, same]

inductive Moved (does : K → Action K → Bool) (worth : K → M) : Label Id K → M → M → Prop where
  | begins {id : Id} {routine : K} {others : M} :
      Moved does worth (.begins id routine) others (worth routine + others)
  | steps {id : Id} {k rest : K} {others : M} (may : does k (.step rest) = true) :
      Moved does worth (.steps id rest) (worth k + others) (worth rest + others)
  | starts {id child : Id} {k routine rest : K} {others : M}
      (may : does k (.start routine rest) = true) :
      Moved does worth (.starts id child routine rest) (worth k + others)
        (worth routine + (worth rest + others))
  | finishes {id : Id} {k : K} {others : M} (may : does k .finish = true) :
      Moved does worth (.finishes id) (worth k + others) others

theorem accounts_moved {label : Label Id K} {left : M} (accounts : Accounts worth p living left)
    (taken : step does p label = some p') :
    ∃ living' left', Accounts worth p' living' left' ∧ Moved does worth label left left' := by
  obtain ⟨members, total⟩ := accounts
  cases label with
  | begins id routine =>
      simp only [step] at taken
      split at taken
      · rename_i unborn
        cases taken
        -- A process that begins was not accounted for.
        have outside : id ∉ living := fun inside => (members id).mp inside unborn
        refine ⟨_, _, ⟨mem_born (by simp) members, sum_born outside _⟩, ?_⟩
        rw [total]
        exact .begins
      · cases taken
  | steps id rest =>
      simp only [step] at taken
      split at taken
      · rename_i k here
        obtain ⟨may, rfl⟩ := guarded_eq_some.mp taken
        have inside : id ∈ living := (members id).mpr (by simp [here])
        refine ⟨_, _, ⟨mem_moved (by simp [here]) (by simp) members, sum_moved inside _⟩, ?_⟩
        rw [← total, ← Finset.add_sum_erase living _ inside, here]
        exact .steps may
      · cases taken
  | starts id child routine rest =>
      simp only [step] at taken
      split at taken
      · rename_i k here unborn
        obtain ⟨may, rfl⟩ := guarded_eq_some.mp taken
        have inside : id ∈ living := (members id).mpr (by simp [here])
        have outside : child ∉ living := fun inside => (members child).mp inside unborn
        have alive : p id ≠ .unborn := by simp [here]
        -- Two changes: the parent goes on, and the child is born beside it.
        have moved := mem_moved alive (q := .running rest) (by simp) members
        refine ⟨_, _, ⟨mem_born (by simp) moved, sum_born outside _⟩, ?_⟩
        rw [sum_moved inside, ← total, ← Finset.add_sum_erase living _ inside, here]
        exact .starts may
      · cases taken
  | finishes id =>
      simp only [step] at taken
      split at taken
      · rename_i k here
        obtain ⟨may, rfl⟩ := guarded_eq_some.mp taken
        have inside : id ∈ living := (members id).mpr (by simp [here])
        refine ⟨_, _, ⟨mem_moved (by simp [here]) (by simp) members, sum_moved inside _⟩, ?_⟩
        rw [← total, ← Finset.add_sum_erase living _ inside, here, Process.value_finished, zero_add]
        exact .finishes may
      · cases taken

theorem reaches_accounts (worth : K → M) {trace : List (Label Id K)}
    (run : Reaches (step does) unrestricted init trace p) :
    ∃ living left, Accounts worth p living left := by
  induction run with
  | start => exact ⟨∅, 0, ⟨by simp [init], rfl⟩⟩
  | next label _ _ taken ih =>
      obtain ⟨_, _, accounts⟩ := ih
      obtain ⟨living, left, accounts', _⟩ := accounts_moved accounts taken
      exact ⟨living, left, accounts'⟩

omit [DecidableEq Id] in
theorem Moved.balanced (balanced : Balanced does worth gives) {label : Label Id K} {left left' : M}
    (moved : Moved does worth label left left') :
    label.given gives + left' = left + label.brought worth := by
  cases moved with
  | begins => simp [Label.given, Label.action, Label.brought, add_comm]
  | steps may =>
      simp [Label.given, Label.action, Label.brought, balanced.step _ _ may, add_assoc]
  | starts may =>
      simp [Label.given, Label.action, Label.brought, balanced.start _ _ _ may, add_assoc,
        add_left_comm]
  | finishes may => simp [Label.given, Label.action, Label.brought, balanced.finish _ may]

/-- Whatever the order of the steps, what was given and what is left to give make up what
the processes from outside were worth. -/
theorem conserved (balanced : Balanced does worth gives) {trace : List (Label Id K)}
    (run : Reaches (step does) unrestricted init trace p) :
    ∃ living left, Accounts worth p living left ∧
      (trace.map (Label.given gives)).sum + left = (trace.map (Label.brought worth)).sum := by
  -- What a step gives is what the accounts lose; only a start from outside brings more.
  induction run with
  | start => exact ⟨∅, 0, ⟨by simp [init], rfl⟩, by simp⟩
  | next label _ _ taken ih =>
      obtain ⟨living, left, accounts, before⟩ := ih
      obtain ⟨living', left', accounts', moved⟩ := accounts_moved accounts taken
      refine ⟨living', left', accounts', ?_⟩
      rw [List.map_append, List.map_append, List.sum_append, List.sum_append, ← before]
      simp only [List.map_cons, List.map_nil, List.sum_cons, List.sum_nil, add_zero]
      rw [add_assoc, moved.balanced balanced, add_assoc]

omit [DecidableEq Id] in
theorem Accounts.ended {left : M} (accounts : Accounts worth p living left)
    (ended : ∀ id, p id = .unborn ∨ p id = .finished) : left = 0 := by
  rw [← accounts.total]
  refine Finset.sum_eq_zero fun id _ => ?_
  rcases ended id with unborn | finished
  · rw [unborn, Process.value_unborn]
  · rw [finished, Process.value_finished]

end Worth

section Bound
variable {does : K → Action K → Bool} {worth : K → ℕ}

/-- A routine and those that it starts do at most as many steps as it is worth. -/
structure Bounded (does : K → Action K → Bool) (worth : K → ℕ) : Prop where
  step : ∀ k rest, does k (.step rest) = true → worth rest < worth k
  start : ∀ k routine rest, does k (.start routine rest) = true →
    worth rest + worth routine < worth k

def Label.price : Label Id K → ℕ
  | steps _ _ | starts _ _ _ _ => 1
  | begins _ _ | finishes _ => 0

def Label.isOwn : Label Id K → Bool
  | begins _ _ => false
  | _ => true

theorem Moved.bounded (bounded : Bounded does worth) {label : Label Id K} {left left' : ℕ}
    (moved : Moved does worth label left left') (own : label.isOwn = true) :
    left' + label.price ≤ left := by
  cases moved with
  | begins => cases own
  | @steps _ k rest others may =>
      have less := bounded.step k rest may
      simp only [Label.price]
      omega
  | @starts _ _ k routine rest others may =>
      have less := bounded.start k routine rest may
      simp only [Label.price]
      omega
  | finishes may => simp [Label.price]

end Bound
end ConcurrencyCourse.Processes
