import ConcurrencyCourse.Interleaving
import Mathlib.Logic.Function.Basic
import Mathlib.Logic.Relation
import Mathlib.Order.WellFounded

/-!
Threads that lock and unlock several mutexes. Where every thread locks in the
descending order of some rank, the wait-for relation is well-founded: no set of
threads is deadlocked, and whoever waits does so, through other waiters, for a
thread that can go on.
-/

namespace ConcurrencyCourse.LockOrder

open Interleaving

variable {Thread Lock Act Data α : Type*}

inductive Op (Lock Act : Type*) where
  | lock (l : Lock)
  | unlock (l : Lock)
  | act (a : Act)

structure Program (Thread Lock Act Data : Type*) where
  script : Thread → List (Op Lock Act)
  effect : Thread → Act → Data → Data

/-- `rest` is what is left of the round that a thread is in. -/
structure State (Thread Lock Act Data : Type*) where
  rest : Thread → List (Op Lock Act)
  owner : Lock → Option Thread
  data : Data

inductive Label (Thread : Type*) where
  | round (t : Thread)
  | next (t : Thread)
  deriving DecidableEq

def init (data : Data) : State Thread Lock Act Data where
  rest := fun _ => []
  owner := fun _ => none
  data := data

section Machine
variable [DecidableEq Thread]

namespace State
variable (s : State Thread Lock Act Data)

def goto (t : Thread) (rest : List (Op Lock Act)) : State Thread Lock Act Data :=
  { s with
    rest := Function.update s.rest t rest }

theorem goto_other {t t' : Thread} (different : t' ≠ t) (rest : List (Op Lock Act)) :
    (s.goto t rest).rest t' = s.rest t' :=
  Function.update_of_ne different ..

variable [DecidableEq Lock]

def setOwner (l : Lock) (owner : Option Thread) : State Thread Lock Act Data :=
  { s with
    owner := Function.update s.owner l owner }

end State

variable [DecidableEq Lock]

def perform (program : Program Thread Lock Act Data) (s : State Thread Lock Act Data) (t : Thread)
    (rest : List (Op Lock Act)) : Op Lock Act → Option (State Thread Lock Act Data)
  | .lock l => guarded (s.owner l = none) ((s.setOwner l (some t)).goto t rest)
  | .unlock l => guarded (s.owner l = some t) ((s.setOwner l none).goto t rest)
  | .act a => some { s.goto t rest with
      data := program.effect t a s.data }

def step (program : Program Thread Lock Act Data) (s : State Thread Lock Act Data) :
    Label Thread → Option (State Thread Lock Act Data)
  | .round t =>
      match s.rest t with
      | [] => some (s.goto t (program.script t))
      | _ :: _ => none
  | .next t =>
      match s.rest t with
      | [] => none
      | op :: rest => perform program s t rest op

end Machine

namespace State
variable (s : State Thread Lock Act Data)

def Waits (t holder : Thread) : Prop :=
  ∃ l rest, s.rest t = .lock l :: rest ∧ s.owner l = some holder

def Deadlocked (threads : Set Thread) : Prop :=
  threads.Nonempty ∧ ∀ t ∈ threads, ∃ holder ∈ threads, s.Waits t holder

end State

/-- A script locks below every rank that it holds, has at each action the mutexes
that the action needs, unlocks what it holds and ends with nothing. -/
def Disciplined [LT α] [DecidableEq Lock] (rank : Lock → α) (needs : Act → List Lock) :
    List Lock → List (Op Lock Act) → Prop
  | held, [] => held = []
  | held, .lock l :: rest =>
      (∀ l' ∈ held, rank l < rank l') ∧ Disciplined rank needs (l :: held) rest
  | held, .unlock l :: rest =>
      l ∈ held ∧ Disciplined rank needs (held.filter fun l' => decide (l' ≠ l)) rest
  | held, .act a :: rest => (∀ l ∈ needs a, l ∈ held) ∧ Disciplined rank needs held rest

section Ordered
variable [LT α] [DecidableEq Lock] {program : Program Thread Lock Act Data} {rank : Lock → α}
  {needs : Thread → Act → List Lock} {s s' : State Thread Lock Act Data} {t t' : Thread}
  {held : List Lock}

/-- A thread is at a point of its script, and owns what it holds there. -/
structure Follows (program : Program Thread Lock Act Data) (rank : Lock → α)
    (needs : Thread → Act → List Lock) (s : State Thread Lock Act Data) (t : Thread)
    (held : List Lock) : Prop where
  part : s.rest t <:+ program.script t
  owns : ∀ l, s.owner l = some t ↔ l ∈ held
  disciplined : Disciplined rank (needs t) held (s.rest t)

def Ordered (program : Program Thread Lock Act Data) (rank : Lock → α)
    (needs : Thread → Act → List Lock) (s : State Thread Lock Act Data) : Prop :=
  ∀ t, ∃ held, Follows program rank needs s t held

theorem init_ordered (data : Data) : Ordered program rank needs (init data) :=
  fun _ => ⟨[], List.nil_suffix, fun _ => by simp [init], rfl⟩

theorem Follows.below (follows : Follows program rank needs s t held) {l l' : Lock}
    {rest : List (Op Lock Act)} (locks : s.rest t = .lock l :: rest) (owned : s.owner l' = some t) :
    rank l < rank l' := by
  have disciplined := follows.disciplined
  rw [locks] at disciplined
  exact disciplined.1 l' ((follows.owns l').mp owned)

theorem Follows.has (follows : Follows program rank needs s t held) {a : Act}
    {rest : List (Op Lock Act)} (acts : s.rest t = .act a :: rest) {l : Lock}
    (needed : l ∈ needs t a) : s.owner l = some t := by
  have disciplined := follows.disciplined
  rw [acts] at disciplined
  exact (follows.owns l).mpr (disciplined.1 l needed)

theorem Follows.inside (follows : Follows program rank needs s t held) {l : Lock}
    (owned : s.owner l = some t) : s.rest t ≠ [] := by
  intro ended
  have disciplined := follows.disciplined
  rw [ended] at disciplined
  have inside := (follows.owns l).mp owned
  rw [disciplined] at inside
  cases inside

theorem Follows.other (follows : Follows program rank needs s t held) (rest : s'.rest t = s.rest t)
    (owner : ∀ l, s'.owner l = some t ↔ s.owner l = some t) :
    Follows program rank needs s' t held where
  part := rest ▸ follows.part
  owns l := (owner l).trans (follows.owns l)
  disciplined := rest ▸ follows.disciplined

theorem Follows.moves (follows : Follows program rank needs s t held) {op : Op Lock Act}
    {rest : List (Op Lock Act)} (going : s.rest t = op :: rest) (now : s'.rest t = rest)
    {held' : List Lock} (owns : ∀ l, s'.owner l = some t ↔ l ∈ held')
    (disciplined : Disciplined rank (needs t) held' rest) :
    Follows program rank needs s' t held' := by
  have part := follows.part
  rw [going] at part
  refine ⟨?_, owns, ?_⟩ <;> rw [now]
  · exact (List.suffix_cons op rest).trans part
  · exact disciplined

theorem owner_other {l : Lock} {owner : Option Thread} (before : s.owner l ≠ some t')
    (after : owner ≠ some t') (k : Lock) :
    (s.setOwner l owner).owner k = some t' ↔ s.owner k = some t' := by
  by_cases same : k = l
  · subst same
    simp [State.setOwner, before, after]
  · simp [State.setOwner, same]

variable [DecidableEq Thread]

theorem Follows.locked (follows : Follows program rank needs s t held) {l : Lock}
    {rest : List (Op Lock Act)} (locks : s.rest t = .lock l :: rest) :
    Follows program rank needs ((s.setOwner l (some t)).goto t rest) t (l :: held) := by
  have disciplined := follows.disciplined
  rw [locks] at disciplined
  refine follows.moves locks (Function.update_self ..) (fun k => ?_) disciplined.2
  by_cases same : k = l
  · simp [State.goto, State.setOwner, same]
  · simp [State.goto, State.setOwner, same, follows.owns k]

theorem Follows.unlocked (follows : Follows program rank needs s t held) {l : Lock}
    {rest : List (Op Lock Act)} (unlocks : s.rest t = .unlock l :: rest) :
    Follows program rank needs ((s.setOwner l none).goto t rest) t
      (held.filter fun l' => decide (l' ≠ l)) := by
  have disciplined := follows.disciplined
  rw [unlocks] at disciplined
  refine follows.moves unlocks (Function.update_self ..) (fun k => ?_) disciplined.2
  by_cases same : k = l
  · simp [State.goto, State.setOwner, same]
  · simp [State.goto, State.setOwner, same, follows.owns k]

theorem Follows.acted (follows : Follows program rank needs s t held) {a : Act}
    {rest : List (Op Lock Act)} (acts : s.rest t = .act a :: rest) (data : Data) :
    Follows program rank needs { s.goto t rest with
      data := data } t held := by
  have disciplined := follows.disciplined
  rw [acts] at disciplined
  exact follows.moves acts (Function.update_self ..) follows.owns disciplined.2

theorem Follows.started (follows : Follows program rank needs s t held) (ended : s.rest t = [])
    (wellOrdered : Disciplined rank (needs t) [] (program.script t)) :
    Follows program rank needs (s.goto t (program.script t)) t [] := by
  obtain ⟨_, owns, disciplined⟩ := follows
  rw [ended] at disciplined
  cases disciplined
  have now : (s.goto t (program.script t)).rest t = program.script t := Function.update_self ..
  exact ⟨by simp [now], owns, by simpa only [now] using wellOrdered⟩

theorem ordered_step (wellOrdered : ∀ t, Disciplined rank (needs t) [] (program.script t))
    (ordered : Ordered program rank needs s) {label : Label Thread}
    (taken : step program s label = some s') : Ordered program rank needs s' := by
  -- Of another thread it is enough that neither its code nor its mutexes move.
  have others {t : Thread} {rest : List (Op Lock Act)} {next : State Thread Lock Act Data}
      (own : ∃ held, Follows program rank needs next t held)
      (moves : next.rest = (s.goto t rest).rest)
      (owner : ∀ t', t' ≠ t → ∀ l, next.owner l = some t' ↔ s.owner l = some t') :
      Ordered program rank needs next := by
    intro t'
    by_cases same : t' = t
    · exact same ▸ own
    · obtain ⟨held, follows⟩ := ordered t'
      exact ⟨held, follows.other (moves ▸ s.goto_other same rest) (owner t' same)⟩
  cases label with
  | round t =>
      obtain ⟨held, follows⟩ := ordered t
      simp only [step] at taken
      split at taken
      · rename_i ended
        cases taken
        exact others ⟨_, follows.started ended (wellOrdered t)⟩ rfl fun _ _ _ => .rfl
      · cases taken
  | next t =>
      obtain ⟨held, follows⟩ := ordered t
      simp only [step] at taken
      split at taken
      · cases taken
      · rename_i op rest going
        cases op with
        | lock l =>
            obtain ⟨free, rfl⟩ := guarded_eq_some.mp taken
            refine others ⟨_, follows.locked going⟩ rfl fun t' different l' => ?_
            exact owner_other (by simp [free]) (by simpa [eq_comm] using different) l'
        | unlock l =>
            obtain ⟨owned, rfl⟩ := guarded_eq_some.mp taken
            refine others ⟨_, follows.unlocked going⟩ rfl fun t' different l' => ?_
            exact owner_other (by simpa [owned, eq_comm] using different) (by simp) l'
        | act a =>
            cases taken
            exact others ⟨_, follows.acted going _⟩ rfl fun _ _ _ => .rfl

theorem reaches_ordered (wellOrdered : ∀ t, Disciplined rank (needs t) [] (program.script t))
    {data : Data} {trace : List (Label Thread)}
    (run : Reaches (step program) unrestricted (init data) trace s) :
    Ordered program rank needs s :=
  run.invariant (init_ordered data) fun _ _ _ ordered _ taken =>
    ordered_step wellOrdered ordered taken

theorem Follows.goes (follows : Follows program rank needs s t held) (going : s.rest t ≠ [])
    (free : ∀ holder, ¬ s.Waits t holder) : (step program s (.next t)).isSome = true := by
  have disciplined := follows.disciplined
  generalize here : s.rest t = rest at going disciplined
  cases rest with
  | nil => exact absurd rfl going
  | cons op rest =>
      simp only [step, here]
      cases op with
      | lock l =>
          refine guarded_isSome.mpr ?_
          cases owner : s.owner l with
          | none => rfl
          | some holder => exact absurd ⟨l, rest, here, owner⟩ (free holder)
      | unlock l => exact guarded_isSome.mpr ((follows.owns l).mpr disciplined.1)
      | act a => rfl

end Ordered

section Waiting
variable [Preorder α] [WellFoundedLT α] [DecidableEq Lock]
  {program : Program Thread Lock Act Data} {rank : Lock → α} {needs : Thread → Act → List Lock}
  {s : State Thread Lock Act Data}

/-- The wait-for relation is well-founded: along it the awaited ranks descend. -/
theorem Ordered.waits_wellFounded (ordered : Ordered program rank needs s) :
    WellFounded fun holder t => s.Waits t holder := by
  -- By induction on the rank of a mutex that the thread owns.
  have owners (r : α) : ∀ l holder, rank l = r → s.owner l = some holder →
      Acc (fun holder t => s.Waits t holder) holder := by
    induction r using WellFoundedLT.induction with
    | ind r ih =>
        rintro l holder rfl owned
        refine .intro holder fun next waits => ?_
        obtain ⟨l', rest, locks, held⟩ := waits
        obtain ⟨_, follows⟩ := ordered holder
        exact ih (rank l') (follows.below locks owned) l' next rfl held
  refine ⟨fun t => .intro t fun holder waits => ?_⟩
  obtain ⟨l, _, _, owned⟩ := waits
  exact owners (rank l) l holder rfl owned

theorem Ordered.not_deadlocked (ordered : Ordered program rank needs s) (threads : Set Thread) :
    ¬ s.Deadlocked threads := by
  rintro ⟨nonempty, waiting⟩
  obtain ⟨t, inside, least⟩ := ordered.waits_wellFounded.has_min threads nonempty
  obtain ⟨holder, member, waits⟩ := waiting t inside
  exact least holder member waits

theorem Ordered.waits_for_going [DecidableEq Thread] (ordered : Ordered program rank needs s)
    {t holder : Thread} (waits : s.Waits t holder) :
    ∃ last, Relation.TransGen s.Waits t last ∧ (∃ l, s.owner l = some last) ∧
      (step program s (.next last)).isSome = true := by
  induction holder using ordered.waits_wellFounded.induction generalizing t with
  | _ holder ih =>
      by_cases free : ∀ next, ¬ s.Waits holder next
      · have ⟨l, _, _, owned⟩ := waits
        obtain ⟨_, follows⟩ := ordered holder
        exact ⟨holder, .single waits, ⟨l, owned⟩, follows.goes (follows.inside owned) free⟩
      · obtain ⟨next, onward⟩ := not_forall_not.mp free
        obtain ⟨last, chain, able⟩ := ih next onward onward
        exact ⟨last, .head waits chain, able⟩

end Waiting

end ConcurrencyCourse.LockOrder
