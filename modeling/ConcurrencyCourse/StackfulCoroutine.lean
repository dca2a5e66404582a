import ConcurrencyCourse.Asymmetric
import Mathlib.Data.Fintype.Basic

/-!
The stackful coroutine over ExecutionContext. A context is a stack and the point
at which its code stands; SwitchTo stores the running context on its left and
continues the one on its right, ExitTo continues without storing. Resume, Suspend
and Trampoline are taken statement by statement, so that `current`, the saved
`last`, the two contexts, `is_completed_` and `exception_` of every coroutine are
seen at every point between them. The bodies are arbitrary programs; each stack
continues with the thread that switched to it.
-/

namespace ConcurrencyCourse.StackfulCoroutine

open Interleaving Asymmetric

variable {Thread Co Code Exc : Type*}

inductive Control (Co Code Exc : Type*) where
  | code (k : Code)
  -- Resume
  | resuming (callee : Co) (rest : Code)
  | switching (callee : Co) (last : Option Co) (rest : Code)
  | switched (callee : Co) (last : Option Co) (rest : Code)
  | checking (callee : Co) (rest : Code)
  -- Suspend
  | suspending (rest : Code)
  -- Trampoline
  | starting
  | caught (e : Exc)
  | completing
  | exiting
  -- The end of a thread's own code
  | finished
  | uncaught (e : Exc)

structure ExecutionContext (Thread Co Code Exc : Type*) where
  stack : Body Thread Co
  control : Control Co Code Exc

structure Coroutine (Thread Co Code Exc : Type*) where
  coroutineContext : ExecutionContext Thread Co Code Exc
  callerContext : Option (ExecutionContext Thread Co Code Exc)
  isCompleted : Bool
  exception : Option Exc

/-- `calls` lists the Resume calls each thread is inside, innermost first. No code
reads it: it says which Resume calls are in progress. -/
structure State (Thread Co Code Exc : Type*) where
  running : Thread → ExecutionContext Thread Co Code Exc
  current : Thread → Option Co
  coroutine : Co → Coroutine Thread Co Code Exc
  calls : Thread → List Co

inductive Label (Thread Co Code Exc : Type*) where
  | event (move : Move Thread Co Code Exc)
  | internal (t : Thread)

def Label.thread : Label Thread Co Code Exc → Thread
  | event move => move.thread
  | internal t => t

def Label.observe : Label Thread Co Code Exc → Option (Move Thread Co Code Exc)
  | event move => some move
  | internal _ => none

def constructed (c : Co) : Coroutine Thread Co Code Exc where
  coroutineContext := ⟨.coroutine c, .starting⟩
  callerContext := none
  isCompleted := false
  exception := none

def init (program : Program Thread Co Code Exc) : State Thread Co Code Exc where
  running t := ⟨.thread t, .code (program.main t)⟩
  current _ := none
  coroutine c := constructed c
  calls _ := []

/-- How a stack goes on when its body stands at a position: a coroutine's payload
returns into Trampoline, or is left by an exception that Trampoline catches. -/
def land : Body Thread Co → Position Co Code Exc → Control Co Code Exc
  | _, .code k => .code k
  | _, .waiting callee rest => .resuming callee rest
  | .thread _, .finished => .finished
  | .thread _, .threw e => .uncaught e
  | .coroutine _, .finished => .completing
  | .coroutine _, .threw e => .caught e

section Machine
variable [DecidableEq Thread] [DecidableEq Co]

namespace State
variable (s : State Thread Co Code Exc)

def goto (t : Thread) (context : ExecutionContext Thread Co Code Exc) :
    State Thread Co Code Exc :=
  { s with
    running := Function.update s.running t context }

def setCurrent (t : Thread) (c : Option Co) : State Thread Co Code Exc :=
  { s with
    current := Function.update s.current t c }

def setCoroutine (c : Co) (fields : Coroutine Thread Co Code Exc) : State Thread Co Code Exc :=
  { s with
    coroutine := Function.update s.coroutine c fields }

def setCalls (t : Thread) (calls : List Co) : State Thread Co Code Exc :=
  { s with
    calls := Function.update s.calls t calls }

end State

/-- One statement of Resume, Suspend or Trampoline. Where `current` is null or a
context to continue was never saved, there is no next state. -/
def internalStep (program : Program Thread Co Code Exc) (s : State Thread Co Code Exc)
    (t : Thread) : Option (State Thread Co Code Exc) :=
  let stack := (s.running t).stack
  match (s.running t).control with
  | .resuming callee rest =>
      some ((s.setCurrent t (some callee)).goto t ⟨stack, .switching callee (s.current t) rest⟩)
  | .switching callee last rest =>
      some ((s.setCoroutine callee
        { s.coroutine callee with
          callerContext := some ⟨stack, .switched callee last rest⟩ }).goto t
            (s.coroutine callee).coroutineContext)
  | .switched callee last rest =>
      some ((s.setCurrent t last).goto t ⟨stack, .checking callee rest⟩)
  | .suspending rest =>
      (s.current t).bind fun c =>
        (s.coroutine c).callerContext.map fun caller =>
          (s.setCoroutine c
            { s.coroutine c with
              coroutineContext := ⟨stack, .code rest⟩ }).goto t caller
  | .starting =>
      (s.current t).map fun c => s.goto t ⟨stack, .code (program.payload c)⟩
  | .caught e =>
      (s.current t).map fun c =>
        (s.setCoroutine c
          { s.coroutine c with
            exception := some e }).goto t ⟨stack, .completing⟩
  | .completing =>
      (s.current t).map fun c =>
        (s.setCoroutine c
          { s.coroutine c with
            isCompleted := true }).goto t ⟨stack, .exiting⟩
  | .exiting =>
      (s.current t).bind fun c =>
        (s.coroutine c).callerContext.map fun caller => s.goto t caller
  | .code _ | .checking _ _ | .finished | .uncaught _ => none

def perform (program : Program Thread Co Code Exc) (stack : Body Thread Co) (k : Code) :
    Action Co Code Exc → Control Co Code Exc
  | .segment rest => .code rest
  | .suspend rest => .suspending rest
  | .resume callee rest => .resuming callee rest
  | .throw e => land stack (program.raise k e)
  | .finish => land stack .finished

variable [DecidableEq Exc]

def step (program : Program Thread Co Code Exc) (s : State Thread Co Code Exc) :
    Label Thread Co Code Exc → Option (State Thread Co Code Exc)
  | .internal t => internalStep program s t
  | .event ⟨t, body, .act action⟩ =>
      match (s.running t).control with
      | .code k =>
          guarded (body = (s.running t).stack ∧ program.does k action = true)
            ((s.setCalls t ((Event.act action).callsAfter (s.calls t))).goto t
              ⟨body, perform program body k action⟩)
      | _ => none
  | .event ⟨t, body, .resumed callee thrown⟩ =>
      match (s.running t).control with
      | .checking c rest =>
          guarded (body = (s.running t).stack ∧ callee = c ∧
              thrown = (s.coroutine c).exception)
            ((s.setCalls t (s.calls t).tail).goto t
              ⟨body, land body (program.afterResume rest thrown)⟩)
      | _ => none

end Machine

/-- Suspend is called inside a coroutine only, and Resume only on a coroutine that
is not completed and not in any chain of Resume calls in progress. -/
def allowed (s : State Thread Co Code Exc) : Label Thread Co Code Exc → Prop
  | .internal _ => True
  | .event move =>
      (move.event.suspends = true → ∀ t, move.body ≠ .thread t) ∧
        ∀ callee, move.event.resumes = some callee →
          (s.coroutine callee).isCompleted = false ∧ ∀ t, callee ∉ s.calls t

instance [Fintype Thread] [DecidableEq Thread] [DecidableEq Co] (s : State Thread Co Code Exc)
    (label : Label Thread Co Code Exc) : Decidable (allowed s label) :=
  match label with
  | .internal _ => inferInstanceAs (Decidable True)
  | .event move =>
      inferInstanceAs (Decidable ((move.event.suspends = true → ∀ t, move.body ≠ .thread t) ∧
        ∀ callee ∈ move.event.resumes,
          (s.coroutine callee).isCompleted = false ∧ ∀ t, callee ∉ s.calls t))

/-- The caller context of every coroutine in a chain of calls is the Resume call
that called it: on the stack of the next one, with that one as the saved `last`,
and continuing the body where it waits. -/
def Chained (coroutine : Co → Coroutine Thread Co Code Exc)
    (position : Body Thread Co → Position Co Code Exc) (t : Thread) (calls : List Co) : Prop :=
  ∀ c rest, c :: rest <:+ calls → ∃ k, position (innermost t rest) = .waiting c k ∧
    (coroutine c).callerContext = some ⟨innermost t rest, .switched c rest.head? k⟩

def Alive (coroutine : Co → Coroutine Thread Co Code Exc) (calls : List Co) : Prop :=
  ∀ c ∈ calls, (coroutine c).isCompleted = false ∧ (coroutine c).exception = none

structure Rested (program : Program Thread Co Code Exc)
    (coroutine : Co → Coroutine Thread Co Code Exc)
    (position : Body Thread Co → Position Co Code Exc) (c : Co) : Prop where
  completed : (coroutine c).isCompleted = (position (.coroutine c)).isOver
  thrown : (coroutine c).exception = (position (.coroutine c)).thrown
  saved : ∀ k, position (.coroutine c) = .code k →
    (coroutine c).coroutineContext = ⟨.coroutine c, .code k⟩ ∨
      (coroutine c).coroutineContext = ⟨.coroutine c, .starting⟩ ∧ k = program.payload c

/-- One thread at each statement: where it executes, its `current`, the Resume
calls it is inside and whether the innermost of them is over. -/
inductive Stage (program : Program Thread Co Code Exc)
    (coroutine : Co → Coroutine Thread Co Code Exc)
    (position : Body Thread Co → Position Co Code Exc) (t : Thread) :
    ExecutionContext Thread Co Code Exc → Option Co → List Co → Option (Option Exc) → Prop where
  | code {calls : List Co} {k : Code} (here : position (innermost t calls) = .code k)
      (chained : Chained coroutine position t calls) (alive : Alive coroutine calls) :
      Stage program coroutine position t ⟨innermost t calls, .code k⟩ calls.head? calls none
  | starting {c : Co} {below : List Co} (here : position (.coroutine c) = .code (program.payload c))
      (chained : Chained coroutine position t (c :: below)) (alive : Alive coroutine (c :: below)) :
      Stage program coroutine position t ⟨.coroutine c, .starting⟩ (some c) (c :: below) none
  | resuming {callee : Co} {below : List Co} {rest : Code}
      (waits : position (innermost t below) = .waiting callee rest)
      (chained : Chained coroutine position t below) (alive : Alive coroutine below)
      (rested : Rested program coroutine position callee) :
      Stage program coroutine position t ⟨innermost t below, .resuming callee rest⟩
        below.head? (callee :: below) none
  | switching {callee : Co} {below : List Co} {rest : Code}
      (waits : position (innermost t below) = .waiting callee rest)
      (chained : Chained coroutine position t below) (alive : Alive coroutine below)
      (rested : Rested program coroutine position callee) :
      Stage program coroutine position t ⟨innermost t below, .switching callee below.head? rest⟩
        (some callee) (callee :: below) none
  | suspending {c : Co} {below : List Co} {rest : Code}
      (here : position (.coroutine c) = .code rest)
      (chained : Chained coroutine position t (c :: below)) (alive : Alive coroutine (c :: below)) :
      Stage program coroutine position t ⟨.coroutine c, .suspending rest⟩
        (some c) (c :: below) (some none)
  | caught {c : Co} {below : List Co} {e : Exc} (here : position (.coroutine c) = .threw e)
      (chained : Chained coroutine position t (c :: below)) (alive : Alive coroutine (c :: below)) :
      Stage program coroutine position t ⟨.coroutine c, .caught e⟩
        (some c) (c :: below) (some (some e))
  | completing {c : Co} {below : List Co} {thrown : Option Exc}
      (ends : (position (.coroutine c)).isOver = true)
      (result : (position (.coroutine c)).thrown = thrown)
      (chained : Chained coroutine position t (c :: below)) (alive : Alive coroutine below)
      (stored : (coroutine c).exception = thrown) :
      Stage program coroutine position t ⟨.coroutine c, .completing⟩
        (some c) (c :: below) (some thrown)
  | exiting {c : Co} {below : List Co} {thrown : Option Exc}
      (ends : (position (.coroutine c)).isOver = true)
      (result : (position (.coroutine c)).thrown = thrown)
      (chained : Chained coroutine position t (c :: below)) (alive : Alive coroutine below)
      (stored : (coroutine c).exception = thrown) (completed : (coroutine c).isCompleted = true) :
      Stage program coroutine position t ⟨.coroutine c, .exiting⟩
        (some c) (c :: below) (some thrown)
  | switched {callee : Co} {below : List Co} {rest : Code} {thrown : Option Exc}
      (waits : position (innermost t below) = .waiting callee rest)
      (chained : Chained coroutine position t below) (alive : Alive coroutine below)
      (rested : Rested program coroutine position callee)
      (stored : (coroutine callee).exception = thrown) :
      Stage program coroutine position t ⟨innermost t below, .switched callee below.head? rest⟩
        (some callee) (callee :: below) (some thrown)
  | checking {callee : Co} {below : List Co} {rest : Code} {thrown : Option Exc}
      (waits : position (innermost t below) = .waiting callee rest)
      (chained : Chained coroutine position t below) (alive : Alive coroutine below)
      (rested : Rested program coroutine position callee)
      (stored : (coroutine callee).exception = thrown) :
      Stage program coroutine position t ⟨innermost t below, .checking callee rest⟩
        below.head? (callee :: below) (some thrown)
  | finished (here : position (.thread t) = .finished) :
      Stage program coroutine position t ⟨.thread t, .finished⟩ none [] none
  | uncaught {e : Exc} (here : position (.thread t) = .threw e) :
      Stage program coroutine position t ⟨.thread t, .uncaught e⟩ none [] none

structure Related (program : Program Thread Co Code Exc) (s : State Thread Co Code Exc)
    (a : Asymmetric.State Thread Co Code Exc) : Prop where
  sound : Asymmetric.Sound a
  calls : s.calls = a.calls
  stage : ∀ t, Stage program s.coroutine a.position t (s.running t) (s.current t)
    (a.calls t) (a.ended t)
  idle : ∀ c, (∀ t, c ∉ a.calls t) → Rested program s.coroutine a.position c

section Frames
variable {program program' : Program Thread Co Code Exc}
  {coroutine coroutine' : Co → Coroutine Thread Co Code Exc}
  {position position' : Body Thread Co → Position Co Code Exc} {t : Thread} {calls : List Co}

theorem Chained.tail {c : Co} (chained : Chained coroutine position t (c :: calls)) :
    Chained coroutine position t calls :=
  fun c' rest suffix => chained c' rest (suffix.trans (List.suffix_cons c calls))

theorem Alive.tail {c : Co} (alive : Alive coroutine (c :: calls)) : Alive coroutine calls :=
  fun c' inside => alive c' (List.mem_cons_of_mem c inside)

theorem Alive.head {c : Co} (alive : Alive coroutine (c :: calls)) :
    (coroutine c).isCompleted = false ∧ (coroutine c).exception = none :=
  alive c List.mem_cons_self

theorem Chained.frame (chained : Chained coroutine position t calls)
    (fields : ∀ c ∈ calls, (coroutine' c).callerContext = (coroutine c).callerContext)
    (bodies : ∀ c rest, c :: rest <:+ calls →
      position' (innermost t rest) = position (innermost t rest)) :
    Chained coroutine' position' t calls := by
  intro c rest suffix
  rw [bodies c rest suffix, fields c (suffix.subset List.mem_cons_self)]
  exact chained c rest suffix

theorem Alive.frame (alive : Alive coroutine calls)
    (fields : ∀ c ∈ calls, coroutine' c = coroutine c) : Alive coroutine' calls := by
  intro c inside
  rw [fields c inside]
  exact alive c inside

theorem Rested.frame {c : Co} (rested : Rested program coroutine position c)
    (fields : coroutine' c = coroutine c)
    (bodies : position' (.coroutine c) = position (.coroutine c))
    (entry : program'.payload c = program.payload c) :
    Rested program' coroutine' position' c where
  completed := by
    rw [fields, bodies]
    exact rested.completed
  thrown := by
    rw [fields, bodies]
    exact rested.thrown
  saved := by
    rw [fields, bodies, entry]
    exact rested.saved

theorem Stage.frame {context : ExecutionContext Thread Co Code Exc} {current : Option Co}
    {ended : Option (Option Exc)}
    (stage : Stage program coroutine position t context current calls ended)
    (fields : ∀ c ∈ calls, coroutine' c = coroutine c)
    (bodies : ∀ body, Within t calls body → position' body = position body)
    (entry : ∀ c ∈ calls, program'.payload c = program.payload c) :
    Stage program' coroutine' position' t context current calls ended := by
  have own : position' (innermost t calls) = position (innermost t calls) :=
    bodies _ (innermost_within t calls)
  have chained {part : List Co} (inside : part ⊆ calls) (old : Chained coroutine position t part) :
      Chained coroutine' position' t part := by
    refine old.frame ?_ ?_
    · exact fun c called => congrArg Coroutine.callerContext (fields c (inside called))
    · intro c rest suffix
      refine bodies _ ((innermost_within t rest).mono fun d below => inside ?_)
      exact suffix.subset (List.mem_cons_of_mem c below)
  have alive {part : List Co} (inside : part ⊆ calls) (old : Alive coroutine part) :
      Alive coroutine' part := old.frame fun c called => fields c (inside called)
  have enclosing {part : List Co} (inside : part ⊆ calls) {there : Position Co Code Exc}
      (old : position (innermost t part) = there) : position' (innermost t part) = there :=
    (bodies _ ((innermost_within t part).mono inside)).trans old
  cases stage with
  | code here links lives =>
      exact .code (own.trans here) (chained (List.Subset.refl _) links)
        (alive (List.Subset.refl _) lives)
  | starting here links lives =>
      refine .starting ?_ (chained (List.Subset.refl _) links) (alive (List.Subset.refl _) lives)
      rw [entry _ List.mem_cons_self]
      exact own.trans here
  | @resuming callee below rest waits links lives rested =>
      have part : below ⊆ callee :: below := List.subset_cons_self callee below
      exact .resuming (enclosing part waits) (chained part links) (alive part lives)
        (rested.frame (fields _ List.mem_cons_self) own (entry _ List.mem_cons_self))
  | @switching callee below rest waits links lives rested =>
      have part : below ⊆ callee :: below := List.subset_cons_self callee below
      exact .switching (enclosing part waits) (chained part links) (alive part lives)
        (rested.frame (fields _ List.mem_cons_self) own (entry _ List.mem_cons_self))
  | suspending here links lives =>
      exact .suspending (own.trans here) (chained (List.Subset.refl _) links)
        (alive (List.Subset.refl _) lives)
  | caught here links lives =>
      exact .caught (own.trans here) (chained (List.Subset.refl _) links)
        (alive (List.Subset.refl _) lives)
  | @completing c below thrown ends result links lives stored =>
      have head := fields c List.mem_cons_self
      exact .completing ((congrArg Position.isOver own).trans ends)
        ((congrArg Position.thrown own).trans result) (chained (List.Subset.refl _) links)
        (alive (List.subset_cons_self c below) lives)
        ((congrArg Coroutine.exception head).trans stored)
  | @exiting c below thrown ends result links lives stored completed =>
      have head := fields c List.mem_cons_self
      exact .exiting ((congrArg Position.isOver own).trans ends)
        ((congrArg Position.thrown own).trans result) (chained (List.Subset.refl _) links)
        (alive (List.subset_cons_self c below) lives)
        ((congrArg Coroutine.exception head).trans stored)
        ((congrArg Coroutine.isCompleted head).trans completed)
  | @switched callee below rest thrown waits links lives rested stored =>
      have part : below ⊆ callee :: below := List.subset_cons_self callee below
      have head := fields callee List.mem_cons_self
      exact .switched (enclosing part waits) (chained part links) (alive part lives)
        (rested.frame head own (entry _ List.mem_cons_self))
        ((congrArg Coroutine.exception head).trans stored)
  | @checking callee below rest thrown waits links lives rested stored =>
      have part : below ⊆ callee :: below := List.subset_cons_self callee below
      have head := fields callee List.mem_cons_self
      exact .checking (enclosing part waits) (chained part links) (alive part lives)
        (rested.frame head own (entry _ List.mem_cons_self))
        ((congrArg Coroutine.exception head).trans stored)
  | finished here => exact .finished (own.trans here)
  | uncaught here => exact .uncaught (own.trans here)

end Frames

def pending : Control Co Code Exc → Nat
  | .resuming _ _ => 3
  | .switching _ _ _ => 2
  | .switched _ _ _ => 1
  | .suspending _ => 2
  | .starting => 1
  | .caught _ => 4
  | .completing => 3
  | .exiting => 2
  | .code _ | .checking _ _ | .finished | .uncaught _ => 0

section Fields
variable {program : Program Thread Co Code Exc} {coroutine : Co → Coroutine Thread Co Code Exc}
  {position : Body Thread Co → Position Co Code Exc} {t : Thread} {c : Co} {below : List Co}

theorem Alive.cons {calls : List Co} (alive : Alive coroutine calls)
    (head : (coroutine c).isCompleted = false ∧ (coroutine c).exception = none) :
    Alive coroutine (c :: calls) := by
  intro c' inside
  rcases List.mem_cons.mp inside with rfl | deeper
  · exact head
  · exact alive c' deeper

theorem Stage.exit {thrown : Option Exc} (ends : (position (.coroutine c)).isOver = true)
    (result : (position (.coroutine c)).thrown = thrown)
    (chained : Chained coroutine position t (c :: below)) (alive : Alive coroutine below)
    (stored : (coroutine c).exception = thrown) (completed : (coroutine c).isCompleted = true) :
    ∃ caller, (coroutine c).callerContext = some caller ∧ pending caller.control < 2 ∧
      Stage program coroutine position t caller (some c) (c :: below) (some thrown) := by
  obtain ⟨k, waits, saved⟩ := chained c below (List.suffix_refl _)
  refine ⟨_, saved, by simp [pending], .switched waits chained.tail alive ⟨?_, ?_, ?_⟩ stored⟩
  · rw [completed, ends]
  · rw [stored, result]
  · intro k' there
    rw [there] at ends
    cases ends

variable [DecidableEq Co]

theorem update_outside {d : Co} (outside : d ∉ c :: below)
    (fields : Coroutine Thread Co Code Exc) :
    Function.update coroutine c fields d = coroutine d :=
  Function.update_of_ne (fun (same : d = c) => outside (same ▸ List.mem_cons_self)) ..

theorem Chained.set {calls : List Co} {fields : Coroutine Thread Co Code Exc}
    (chained : Chained coroutine position t calls)
    (same : fields.callerContext = (coroutine c).callerContext) :
    Chained (Function.update coroutine c fields) position t calls := by
  refine chained.frame (fun c' _ => ?_) fun _ _ _ => rfl
  by_cases here : c' = c
  · subst here
    simpa using same
  · rw [Function.update_of_ne here]

theorem Alive.set {calls : List Co} (alive : Alive coroutine calls) (fresh : c ∉ calls)
    (fields : Coroutine Thread Co Code Exc) : Alive (Function.update coroutine c fields) calls :=
  alive.frame fun c' called =>
    Function.update_of_ne (fun (here : c' = c) => fresh (here ▸ called)) ..

theorem Stage.enter {rest k : Code} (fresh : c ∉ below)
    (point : position (.coroutine c) = .code k)
    (waits : position (innermost t below) = .waiting c rest)
    (chained : Chained coroutine position t below) (alive : Alive coroutine below)
    (rested : Rested program coroutine position c) :
    Stage program (Function.update coroutine c
        { coroutine c with
          callerContext := some ⟨innermost t below, .switched c below.head? rest⟩ })
      position t (coroutine c).coroutineContext (some c) (c :: below) none ∧
      pending (coroutine c).coroutineContext.control < 2 := by
  generalize set : ({ coroutine c with
    callerContext := some ⟨innermost t below, .switched c below.head? rest⟩ } :
      Coroutine Thread Co Code Exc) = fields
  have links : Chained (Function.update coroutine c fields) position t (c :: below) := by
    intro c' deeper suffix
    rcases List.suffix_cons_iff.mp suffix with whole | inside
    · cases whole
      exact ⟨rest, waits, by simp [← set]⟩
    · have other : c' ≠ c := fun same => fresh (same ▸ inside.subset List.mem_cons_self)
      obtain ⟨k', link, saved⟩ := chained c' deeper inside
      exact ⟨k', link, by simpa [other] using saved⟩
  have lives : Alive (Function.update coroutine c fields) (c :: below) := by
    refine (alive.set fresh fields).cons ?_
    have completed := rested.completed
    have thrown := rested.thrown
    rw [point] at completed thrown
    simpa [← set] using ⟨completed, thrown⟩
  rcases rested.saved k point with saved | ⟨saved, rfl⟩
  · rw [saved]
    exact ⟨.code point links lives, by simp [pending]⟩
  · rw [saved]
    exact ⟨.starting point links lives, by simp [pending]⟩

theorem Stage.suspend {rest : Code} (fresh : c ∉ below)
    (point : position (.coroutine c) = .code rest)
    (chained : Chained coroutine position t (c :: below)) (alive : Alive coroutine (c :: below)) :
    ∃ caller, (coroutine c).callerContext = some caller ∧ pending caller.control < 2 ∧
      Stage program (Function.update coroutine c
        { coroutine c with
          coroutineContext := ⟨.coroutine c, .code rest⟩ })
        position t caller (some c) (c :: below) (some none) := by
  obtain ⟨k, waits, saved⟩ := chained c below (List.suffix_refl _)
  refine ⟨_, saved, by simp [pending], .switched waits (chained.tail.set rfl)
    (alive.tail.set fresh _) ⟨?_, ?_, ?_⟩ ?_⟩
  · simpa [point, Position.isOver] using alive.head.1
  · simpa [point, Position.thrown] using alive.head.2
  · intro k' there
    cases point.symm.trans there
    exact .inl (by simp)
  · simpa using alive.head.2

theorem Stage.catch {e : Exc} (fresh : c ∉ below) (threw : position (.coroutine c) = .threw e)
    (chained : Chained coroutine position t (c :: below)) (alive : Alive coroutine (c :: below)) :
    Stage program (Function.update coroutine c
        { coroutine c with
          exception := some e })
      position t ⟨.coroutine c, .completing⟩ (some c) (c :: below) (some (some e)) := by
  refine .completing ?_ ?_ (chained.set rfl) (alive.tail.set fresh _) (by simp)
  · rw [threw]
    rfl
  · rw [threw]
    rfl

theorem Stage.complete {thrown : Option Exc} (fresh : c ∉ below)
    (ends : (position (.coroutine c)).isOver = true)
    (result : (position (.coroutine c)).thrown = thrown)
    (chained : Chained coroutine position t (c :: below)) (alive : Alive coroutine below)
    (stored : (coroutine c).exception = thrown) :
    Stage program (Function.update coroutine c
        { coroutine c with
          isCompleted := true })
      position t ⟨.coroutine c, .exiting⟩ (some c) (c :: below) (some thrown) :=
  .exiting ends result (chained.set rfl) (alive.set fresh _) (by simpa using stored) (by simp)

end Fields

theorem init_related (program : Program Thread Co Code Exc) :
    Related program (init program) (Asymmetric.init program) where
  sound := init_sound program
  calls := rfl
  stage t := by
    have chained : Chained (init program).coroutine (Asymmetric.init program).position t [] := by
      intro c rest suffix
      cases List.suffix_nil.mp suffix
    have alive : Alive (init program).coroutine [] := fun _ inside => absurd inside List.not_mem_nil
    have here : (Asymmetric.init program).position (innermost t []) = .code (program.main t) := rfl
    exact .code here chained alive
  idle c _ := by
    refine ⟨rfl, rfl, fun k point => .inr ⟨rfl, ?_⟩⟩
    cases point
    rfl

section Visible
variable {program : Program Thread Co Code Exc} {s : State Thread Co Code Exc}
  {a : Asymmetric.State Thread Co Code Exc} {t : Thread}

structure Running (s : State Thread Co Code Exc) (a : Asymmetric.State Thread Co Code Exc)
    (t : Thread) (stack : Body Thread Co) : Prop where
  inControl : a.inControl t = stack
  current : s.current t = (a.held t).head?
  chained : Chained s.coroutine a.position t (a.held t)
  alive : Alive s.coroutine (a.held t)

theorem Related.at_code (related : Related program s a) {stack : Body Thread Co} {k : Code}
    (here : s.running t = ⟨stack, .code k⟩) :
    Running s a t stack ∧ a.ended t = none ∧ a.position stack = .code k := by
  have stage := related.stage t
  rw [here] at stage
  generalize now : s.current t = current at stage
  generalize within : a.calls t = calls at stage
  generalize outcome : a.ended t = ended at stage
  cases stage with
  | code point chained alive =>
      have held : a.held t = calls := by simp [Asymmetric.State.held, outcome, within]
      exact ⟨⟨by rw [Asymmetric.State.inControl, held], by rw [now, held],
        held.symm ▸ chained, held.symm ▸ alive⟩, rfl, point⟩

theorem Related.on_stack (related : Related program s a) {c : Co}
    (here : (s.running t).stack = .coroutine c) : c ∈ a.calls t := by
  have stage := related.stage t
  generalize s.running t = context at stage here
  generalize s.current t = current at stage
  generalize a.calls t = calls at stage
  generalize a.ended t = ended at stage
  have within {part : List Co} (same : innermost t part = .coroutine c) : c ∈ part := by
    cases part with
    | nil => cases same
    | cons d below =>
        cases same
        exact List.mem_cons_self
  cases stage with
  | code _ _ _ => exact within here
  | resuming _ _ _ _ => exact List.mem_cons_of_mem _ (within here)
  | switching _ _ _ _ => exact List.mem_cons_of_mem _ (within here)
  | switched _ _ _ _ _ => exact List.mem_cons_of_mem _ (within here)
  | checking _ _ _ _ _ => exact List.mem_cons_of_mem _ (within here)
  | finished _ => cases here
  | uncaught _ => cases here
  | _ =>
      cases here
      exact List.mem_cons_self

theorem Related.suspending_called (related : Related program s a) {rest : Code}
    (here : (s.running t).control = .suspending rest) {c : Co} (now : s.current t = some c) :
    c ∈ s.calls t := by
  have stage := related.stage t
  rw [related.calls]
  generalize s.running t = context at stage here
  generalize same : s.current t = current at stage
  generalize a.calls t = calls at stage
  generalize a.ended t = ended at stage
  cases stage with
  | suspending _ _ _ =>
      cases now.symm.trans same
      exact List.mem_cons_self
  | _ => cases here

theorem Related.at_checking (related : Related program s a) {stack : Body Thread Co} {callee : Co}
    {rest : Code} (here : s.running t = ⟨stack, .checking callee rest⟩) :
    Running s a t stack ∧ a.calls t = callee :: a.held t ∧
      a.ended t = some (s.coroutine callee).exception ∧ a.position stack = .waiting callee rest ∧
      Rested program s.coroutine a.position callee := by
  have stage := related.stage t
  rw [here] at stage
  generalize now : s.current t = current at stage
  generalize within : a.calls t = calls at stage
  generalize outcome : a.ended t = ended at stage
  cases stage with
  | @checking callee below rest thrown waits chained alive rested stored =>
      have held : a.held t = below := by simp [Asymmetric.State.held, outcome, within]
      exact ⟨⟨by rw [Asymmetric.State.inControl, held], by rw [now, held],
        held.symm ▸ chained, held.symm ▸ alive⟩, by rw [held], by rw [stored], waits, rested⟩

theorem Stage.lands {calls : List Co} {coroutine : Co → Coroutine Thread Co Code Exc}
    {position : Body Thread Co → Position Co Code Exc} {event : Event Co Code Exc}
    (chained : Chained coroutine position t calls) (alive : Alive coroutine calls)
    (goes : event.suspends = false)
    (stands : ∀ callee k, position (innermost t calls) ≠ .waiting callee k) :
    Stage program coroutine position t
      ⟨innermost t calls, land (innermost t calls) (position (innermost t calls))⟩
      calls.head? calls (event.ending (position (innermost t calls)) (innermost t calls)) := by
  generalize there : position (innermost t calls) = place at stands
  cases calls with
  | nil =>
      cases place with
      | code k => exact .code there chained alive
      | waiting callee k => exact absurd rfl (stands callee k)
      | finished => exact .finished there
      | threw e => exact .uncaught there
  | cons c below =>
      change position (.coroutine c) = place at there
      simp only [innermost, Event.ending, goes, Bool.false_or]
      cases place with
      | code k => exact .code there chained alive
      | waiting callee k => exact absurd rfl (stands callee k)
      | finished =>
          have result : (position (.coroutine c)).thrown = none := by rw [there]; rfl
          exact .completing (by rw [there]; rfl) result chained alive.tail alive.head.2
      | threw e => exact .caught there chained alive

end Visible

section Statements
variable [DecidableEq Thread]
variable {program : Program Thread Co Code Exc} {s s' : State Thread Co Code Exc}
  {a : Asymmetric.State Thread Co Code Exc} {t : Thread}

theorem Related.own (related : Related program s a)
    {context : ExecutionContext Thread Co Code Exc} {current : Option Co}
    (running : s'.running = Function.update s.running t context)
    (now : s'.current = Function.update s.current t current) (calls : s'.calls = s.calls)
    (others : ∀ c, c ∉ a.calls t → s'.coroutine c = s.coroutine c)
    (stage : Stage program s'.coroutine a.position t context current (a.calls t) (a.ended t)) :
    Related program s' a where
  sound := related.sound
  calls := calls.trans related.calls
  stage t' := by
    rw [running, now]
    by_cases same : t' = t
    · subst same
      simpa using stage
    · rw [Function.update_of_ne same, Function.update_of_ne same]
      refine (related.stage t').frame (fun c called => others c fun mine => ?_) (fun _ _ => rfl)
        fun _ _ => rfl
      exact same (related.sound.apart _ _ _ called mine)
  idle c outside := (related.idle c outside).frame (others c (outside t)) rfl rfl

variable [DecidableEq Co]

section Internal
variable {stack : Body Thread Co} {callee c : Co} {last : Option Co} {rest : Code} {e : Exc}
  {caller : ExecutionContext Thread Co Code Exc}

theorem internal_switching (here : s.running t = ⟨stack, .switching callee last rest⟩) :
    internalStep program s t = some ((s.setCoroutine callee
      { s.coroutine callee with
        callerContext := some ⟨stack, .switched callee last rest⟩ }).goto t
          (s.coroutine callee).coroutineContext) := by
  simp [internalStep, here]

theorem internal_suspending (here : s.running t = ⟨stack, .suspending rest⟩)
    (now : s.current t = some c) (saved : (s.coroutine c).callerContext = some caller) :
    internalStep program s t = some ((s.setCoroutine c
      { s.coroutine c with
        coroutineContext := ⟨stack, .code rest⟩ }).goto t caller) := by
  simp [internalStep, here, now, saved]

theorem internal_caught (here : s.running t = ⟨stack, .caught e⟩)
    (now : s.current t = some c) :
    internalStep program s t = some ((s.setCoroutine c
      { s.coroutine c with
        exception := some e }).goto t ⟨stack, .completing⟩) := by
  simp [internalStep, here, now]

theorem internal_completing (here : s.running t = ⟨stack, .completing⟩)
    (now : s.current t = some c) :
    internalStep program s t = some ((s.setCoroutine c
      { s.coroutine c with
        isCompleted := true }).goto t ⟨stack, .exiting⟩) := by
  simp [internalStep, here, now]

theorem internal_exiting (here : s.running t = ⟨stack, .exiting⟩)
    (now : s.current t = some c) (saved : (s.coroutine c).callerContext = some caller) :
    internalStep program s t = some (s.goto t caller) := by
  simp [internalStep, here, now, saved]

end Internal

/-- Every statement of Resume, Suspend and Trampoline can be executed: `current`
is not null and the context to continue has been saved. -/
theorem Related.internal (related : Related program s a) (t : Thread) :
    pending (s.running t).control = 0 ∨ ∃ s', internalStep program s t = some s' ∧
      Related program s' a ∧ pending (s'.running t).control < pending (s.running t).control := by
  have stage := related.stage t
  have nodup := related.sound.nodup t
  generalize here : s.running t = context at stage
  generalize now : s.current t = current at stage
  have kept : s.current = Function.update s.current t current := by
    rw [← now, Function.update_eq_self]
  generalize within : a.calls t = calls at stage nodup
  generalize outcome : a.ended t = ended at stage
  cases stage with
  | code _ _ _ => exact .inl rfl
  | checking _ _ _ _ _ => exact .inl rfl
  | finished _ => exact .inl rfl
  | uncaught _ => exact .inl rfl
  | @resuming callee below rest waits chained alive rested =>
      refine .inr ⟨(s.setCurrent t (some callee)).goto t
        ⟨innermost t below, .switching callee below.head? rest⟩, ?_, ?_, ?_⟩
      · simp [internalStep, here, now]
      · refine related.own rfl rfl rfl (fun _ _ => rfl) ?_
        rw [within, outcome]
        exact .switching waits chained alive rested
      · simp [State.goto, pending]
  | @switching callee below rest waits chained alive rested =>
      -- The callee is at a point of its body, so it can be continued.
      obtain ⟨k, point⟩ : ∃ k, a.position (.coroutine callee) = .code k := by
        have top := related.sound.top t
        rw [within, outcome] at top
        cases top with
        | going point => exact ⟨_, point⟩
      obtain ⟨entered, less⟩ := Stage.enter (List.nodup_cons.mp nodup).1 point waits chained alive
        rested
      refine .inr ⟨_, internal_switching here, ?_, ?_⟩
      · refine related.own rfl kept rfl ?_ ?_
        · exact fun c outside => update_outside (within ▸ outside) _
        · rw [within, outcome]
          exact entered
      · simpa [State.goto, pending] using less
  | @switched callee below rest thrown waits chained alive rested stored =>
      refine .inr ⟨(s.setCurrent t below.head?).goto t
        ⟨innermost t below, .checking callee rest⟩, ?_, ?_, ?_⟩
      · simp [internalStep, here]
      · refine related.own rfl rfl rfl (fun _ _ => rfl) ?_
        rw [within, outcome]
        exact .checking waits chained alive rested stored
      · simp [State.goto, pending]
  | @suspending c below rest point chained alive =>
      obtain ⟨caller, saved, less, back⟩ :=
        Stage.suspend (List.nodup_cons.mp nodup).1 point chained alive
      refine .inr ⟨_, internal_suspending here now saved, ?_, ?_⟩
      · refine related.own rfl kept rfl ?_ ?_
        · exact fun c outside => update_outside (within ▸ outside) _
        · rw [within, outcome]
          exact back
      · simpa [State.goto, pending] using less
  | @starting c below point chained alive =>
      refine .inr ⟨s.goto t ⟨.coroutine c, .code (program.payload c)⟩, ?_, ?_, ?_⟩
      · simp [internalStep, here, now]
      · refine related.own rfl kept rfl (fun _ _ => rfl) ?_
        rw [within, outcome]
        exact .code point chained alive
      · simp [State.goto, pending]
  | @caught c below e threw chained alive =>
      refine .inr ⟨_, internal_caught here now, ?_, ?_⟩
      · refine related.own rfl kept rfl ?_ ?_
        · exact fun c outside => update_outside (within ▸ outside) _
        · rw [within, outcome]
          exact Stage.catch (List.nodup_cons.mp nodup).1 threw chained alive
      · simp [State.goto, pending]
  | @completing c below thrown ends result chained alive stored =>
      refine .inr ⟨_, internal_completing here now, ?_, ?_⟩
      · refine related.own rfl kept rfl ?_ ?_
        · exact fun c outside => update_outside (within ▸ outside) _
        · rw [within, outcome]
          exact Stage.complete (List.nodup_cons.mp nodup).1 ends result chained alive stored
      · simp [State.goto, pending]
  | @exiting c below thrown ends result chained alive stored completed =>
      obtain ⟨caller, saved, less, back⟩ := Stage.exit ends result chained alive stored completed
      refine .inr ⟨_, internal_exiting here now saved, ?_, ?_⟩
      · refine related.own rfl kept rfl (fun _ _ => rfl) ?_
        rw [within, outcome]
        exact back
      · simpa [State.goto, pending] using less

theorem internal_pending (left : pending (s.running t).control = 0) :
    internalStep program s t = none := by
  unfold internalStep
  generalize s.running t = context at left
  obtain ⟨stack, control⟩ := context
  cases control <;> simp [pending] at left ⊢

theorem Related.internal_kept (related : Related program s a)
    (taken : internalStep program s t = some s') : Related program s' a := by
  rcases related.internal t with visible | ⟨next, moved, still, _⟩
  · cases (internal_pending visible).symm.trans taken
  · cases moved.symm.trans taken
    exact still

theorem internal_effect (taken : internalStep program s t = some s') :
    s'.calls = s.calls ∧ ∀ c,
      (s'.coroutine c).coroutineContext = (s.coroutine c).coroutineContext ∨
        ∃ rest, (s.running t).control = .suspending rest ∧ s.current t = some c := by
  have kept {c d : Co} {fields : Coroutine Thread Co Code Exc}
      (same : fields.coroutineContext = (s.coroutine d).coroutineContext) :
      (Function.update s.coroutine d fields c).coroutineContext =
        (s.coroutine c).coroutineContext := by
    by_cases eq : c = d
    · subst eq
      simpa using same
    · simp [eq]
  generalize here : s.running t = context at taken
  obtain ⟨stack, control⟩ := context
  cases control with
  | resuming callee rest =>
      simp only [internalStep, here] at taken
      cases taken
      exact ⟨rfl, fun c => .inl rfl⟩
  | switching callee last rest =>
      simp only [internalStep, here] at taken
      cases taken
      exact ⟨rfl, fun c => .inl (kept rfl)⟩
  | switched callee last rest =>
      simp only [internalStep, here] at taken
      cases taken
      exact ⟨rfl, fun c => .inl rfl⟩
  | suspending rest =>
      simp only [internalStep, here] at taken
      obtain ⟨d, now, moved⟩ := Option.bind_eq_some_iff.mp taken
      obtain ⟨caller, _, rfl⟩ := Option.map_eq_some_iff.mp moved
      refine ⟨rfl, fun c => ?_⟩
      by_cases same : c = d
      · subst same
        exact .inr ⟨rest, rfl, now⟩
      · refine .inl ?_
        simp [State.goto, State.setCoroutine, same]
  | starting =>
      simp only [internalStep, here] at taken
      obtain ⟨_, _, rfl⟩ := Option.map_eq_some_iff.mp taken
      exact ⟨rfl, fun c => .inl rfl⟩
  | caught e =>
      simp only [internalStep, here] at taken
      obtain ⟨_, _, rfl⟩ := Option.map_eq_some_iff.mp taken
      exact ⟨rfl, fun c => .inl (kept rfl)⟩
  | completing =>
      simp only [internalStep, here] at taken
      obtain ⟨_, _, rfl⟩ := Option.map_eq_some_iff.mp taken
      exact ⟨rfl, fun c => .inl (kept rfl)⟩
  | exiting =>
      simp only [internalStep, here] at taken
      obtain ⟨_, _, moved⟩ := Option.bind_eq_some_iff.mp taken
      obtain ⟨_, _, rfl⟩ := Option.map_eq_some_iff.mp moved
      exact ⟨rfl, fun c => .inl rfl⟩
  | _ => simp [internalStep, here] at taken

theorem Related.visible (related : Related program s a)
    {context : ExecutionContext Thread Co Code Exc} {event : Event Co Code Exc}
    {there : Position Co Code Exc} (sound : Asymmetric.Sound (a.after t event there))
    (stage : Stage program s.coroutine (a.after t event there).position t context (s.current t)
      (event.callsAfter (a.held t)) (event.ending there (a.inControl t)))
    (leaves : ∀ c ∈ a.calls t, c ∉ event.callsAfter (a.held t) →
      Rested program s.coroutine (a.after t event there).position c) :
    Related program ((s.setCalls t (event.callsAfter (a.held t))).goto t context)
      (a.after t event there) where
  sound := sound
  calls := by simp [State.goto, State.setCalls, Asymmetric.State.after, related.calls]
  stage t' := by
    by_cases same : t' = t
    · subst same
      simpa [State.goto, State.setCalls, Asymmetric.State.after] using stage
    · have before := (related.stage t').frame (fun _ _ => rfl)
        (related.sound.elsewhere same (a.inControl_within t) there) (fun _ _ => rfl)
      simpa [State.goto, State.setCalls, Asymmetric.State.after, same] using before
  idle c outside := by
    have here : c ∉ event.callsAfter (a.held t) := by
      simpa [Asymmetric.State.after] using outside t
    by_cases called : c ∈ a.calls t
    · exact leaves c called here
    · refine (related.idle c fun t' inside => ?_).frame rfl (Function.update_of_ne ?_ ..) rfl
      · by_cases same : t' = t
        · exact called (same ▸ inside)
        · exact outside t' (by simpa [Asymmetric.State.after, same] using inside)
      · intro mine
        exact called ((a.held_part t).subset (Asymmetric.State.inControl_coroutine mine.symm))

theorem Chained.moved {calls : List Co} {coroutine : Co → Coroutine Thread Co Code Exc}
    {position : Body Thread Co → Position Co Code Exc}
    (chained : Chained coroutine position t calls) (nodup : calls.Nodup)
    (there : Position Co Code Exc) :
    Chained coroutine (Function.update position (innermost t calls) there) t calls :=
  chained.frame (fun _ _ => rfl) fun _ _ suffix =>
    Function.update_of_ne (innermost_fresh nodup suffix) ..

theorem Related.goes (related : Related program s a) {stack : Body Thread Co}
    (running : Running s a t stack) {event : Event Co Code Exc} {there : Position Co Code Exc}
    (stays : event.resumes = none) (goes : event.suspends = false)
    (stands : ∀ callee k, there ≠ .waiting callee k)
    (leaves : ∀ c ∈ a.calls t, c ∉ a.held t →
      Rested program s.coroutine (a.after t event there).position c) :
    Related program ((s.setCalls t (a.held t)).goto t ⟨stack, land stack there⟩)
      (a.after t event there) := by
  have calls := callsAfter_stays (a.held t) stays
  have point : (a.after t event there).position (innermost t (a.held t)) = there := by
    simp [Asymmetric.State.after, Asymmetric.State.inControl]
  have chained : Chained s.coroutine (a.after t event there).position t (a.held t) :=
    running.chained.moved (related.sound.held_nodup t) there
  have stage : Stage program s.coroutine (a.after t event there).position t
      ⟨stack, land stack there⟩ (s.current t) (a.held t) (event.ending there (a.inControl t)) := by
    rw [← running.inControl, running.current, Asymmetric.State.inControl]
    have lands : Stage program _ _ t _ _ _ _ := Stage.lands chained running.alive goes
      (by rwa [point])
    rwa [point] at lands
  have moved := related.visible (related.sound.went t stays stands)
    (by rw [calls]; exact stage) (by rw [calls]; exact leaves)
  rwa [calls] at moved

theorem Related.suspends (related : Related program s a) {c : Co} {rest : Code}
    (running : Running s a t (.coroutine c)) (going : a.ended t = none) :
    Related program ((s.setCalls t (a.held t)).goto t ⟨.coroutine c, .suspending rest⟩)
      (a.after t (.act (.suspend rest)) (.code rest)) := by
  have point : (a.after t (.act (.suspend rest)) (.code rest)).position (.coroutine c) =
      .code rest := after_own running.inControl
  have chained : Chained s.coroutine (a.after t (.act (.suspend rest)) (.code rest)).position t
      (a.held t) := running.chained.moved (related.sound.held_nodup t) _
  have alive := running.alive
  have now := running.current
  have held : a.held t = a.calls t := by simp [Asymmetric.State.held, going]
  have control := running.inControl
  have sound : Asymmetric.Sound (a.after t (.act (.suspend rest)) (.code rest)) :=
    related.sound.went t rfl (by simp)
  refine related.visible sound ?_ ?_
  · change Stage program _ _ t _ _ (a.held t) _
    rw [control]
    unfold Asymmetric.State.inControl at control
    generalize a.held t = calls at *
    cases calls with
    | nil => cases control
    | cons d below =>
        cases control
        rw [now]
        exact .suspending point chained alive
  · intro d called outside
    exact absurd (held.symm ▸ called) outside

theorem Related.resumes (related : Related program s a) {stack : Body Thread Co} {callee : Co}
    {rest : Code} (running : Running s a t stack) (going : a.ended t = none)
    (ready : (a.position (.coroutine callee)).isOver = false) (free : ∀ t', callee ∉ a.calls t') :
    Related program ((s.setCalls t (callee :: a.held t)).goto t ⟨stack, .resuming callee rest⟩)
      (a.after t (.act (.resume callee rest)) (.waiting callee rest)) := by
  have held : a.held t = a.calls t := by simp [Asymmetric.State.held, going]
  have apart : a.inControl t ≠ .coroutine callee := fun mine =>
    free t ((a.held_part t).subset (Asymmetric.State.inControl_coroutine mine))
  have sound : Asymmetric.Sound (a.after t (.act (.resume callee rest)) (.waiting callee rest)) :=
    related.sound.entered ready free
  have still : (a.after t (.act (.resume callee rest)) (.waiting callee rest)).position
      (.coroutine callee) = a.position (.coroutine callee) := after_other apart
  have rested := (related.idle callee free).frame rfl still rfl
  have waits : (a.after t (.act (.resume callee rest)) (.waiting callee rest)).position
      (innermost t (a.held t)) = .waiting callee rest := by
    simp [Asymmetric.State.after, Asymmetric.State.inControl]
  have chained : Chained s.coroutine
      (a.after t (.act (.resume callee rest)) (.waiting callee rest)).position t (a.held t) :=
    running.chained.moved (related.sound.held_nodup t) _
  refine related.visible sound ?_ ?_
  · have unended : (Event.act (.resume callee rest)).ending (.waiting callee rest)
        (a.inControl t) = (none : Option (Option Exc)) := by
      cases a.inControl t <;> rfl
    rw [unended, running.current, ← running.inControl]
    exact .resuming waits chained running.alive rested
  · intro d called outside
    exact absurd (List.mem_cons_of_mem callee (held.symm ▸ called)) outside

theorem Related.constructs (related : Related program s a) {c : Co}
    (free : ∀ t, c ∉ a.calls t) {program' : Program Thread Co Code Exc}
    (others : ∀ d, d ≠ c → program'.payload d = program.payload d) :
    Related program' (s.setCoroutine c (constructed c))
      { a with
        position := Function.update a.position (.coroutine c) (.code (program'.payload c)) } where
  sound := related.sound.placed free _
  calls := related.calls
  stage t := by
    have other {d : Co} (called : d ∈ a.calls t) : d ≠ c := fun same => free t (same ▸ called)
    exact (related.stage t).frame (fun d called => Function.update_of_ne (other called) ..)
      (placed_within free _ t) fun d called => others d (other called)
  idle d outside := by
    by_cases same : d = c
    · subst same
      refine ⟨?_, ?_, fun k point => .inr ⟨?_, ?_⟩⟩ <;>
        simp_all [State.setCoroutine, constructed, Position.isOver, Position.thrown]
    · have apart : (.coroutine d : Body Thread Co) ≠ .coroutine c := fun eq => by
        cases eq
        exact same rfl
      exact (related.idle d outside).frame (Function.update_of_ne same ..)
        (Function.update_of_ne apart ..) (others d same)

variable [DecidableEq Exc]

theorem Related.event (related : Related program s a) {move : Move Thread Co Code Exc}
    (admitted : allowed s (.event move)) (taken : step program s (.event move) = some s') :
    ∃ a', Asymmetric.allowed a move ∧ Asymmetric.step program a move = some a' ∧
      Related program s' a' := by
  obtain ⟨t, body, event⟩ := move
  have may : Asymmetric.allowed a ⟨t, body, event⟩ := by
    refine ⟨admitted.1, fun callee called => ?_⟩
    obtain ⟨unfinished, free⟩ := admitted.2 callee called
    rw [related.calls] at free
    exact ⟨(related.idle callee free).completed ▸ unfinished, free⟩
  generalize here : s.running t = context at taken
  obtain ⟨stack, control⟩ := context
  cases event with
  | act action =>
      cases control with
      | code k =>
          simp only [step, here, guarded_eq_some] at taken
          obtain ⟨⟨rfl, does⟩, rfl⟩ := taken
          obtain ⟨running, going, point⟩ := related.at_code here
          have moved : program.advance (a.position body) (.act action) =
              some (program.afterAct k action) :=
            Program.advance_act.mpr ⟨k, point, does, rfl⟩
          have held : a.held t = s.calls t := by
            simp [Asymmetric.State.held, going, related.calls]
          refine ⟨_, may, step_eq_some.mpr ⟨running.inControl.symm, going.symm, _,
            running.inControl ▸ moved, rfl⟩, ?_⟩
          rw [← held]
          -- While the innermost Resume goes on, nobody leaves the stack.
          have leaves (c : Co) (called : c ∈ a.calls t) (outside : c ∉ a.held t) :
              Rested program s.coroutine
                (a.after t (.act action) (program.afterAct k action)).position c := by
            rw [held, related.calls] at outside
            exact absurd called outside
          cases action with
          | segment rest => exact related.goes running rfl rfl (by simp [Program.afterAct]) leaves
          | finish => exact related.goes running rfl rfl (by simp) leaves
          | throw e => exact related.goes running rfl rfl (program.raise_stands k e) leaves
          | resume callee rest =>
              obtain ⟨ready, free⟩ := may.2 callee rfl
              exact related.resumes running going ready free
          | suspend rest =>
              cases body with
              | thread t' => exact absurd rfl (may.1 rfl t')
              | coroutine c => exact related.suspends running going
      | _ => simp [step, here] at taken
  | resumed callee thrown =>
      cases control with
      | checking c rest =>
          simp only [step, here, guarded_eq_some] at taken
          obtain ⟨⟨rfl, rfl, rfl⟩, rfl⟩ := taken
          obtain ⟨running, calls, ended, waits, rested⟩ := related.at_checking here
          have moved : program.advance (a.position body)
              (.resumed callee (s.coroutine callee).exception) =
              some (program.afterResume rest (s.coroutine callee).exception) :=
            Program.advance_resumed.mpr ⟨rest, waits, rfl⟩
          refine ⟨_, may, step_eq_some.mpr ⟨running.inControl.symm, ended.symm, _,
            running.inControl ▸ moved, rfl⟩, ?_⟩
          have below : (s.calls t).tail = a.held t := by
            rw [related.calls, calls]
            rfl
          rw [below]
          refine related.goes running rfl rfl (program.afterResume_stands _ _) ?_
          intro d called outside
          rw [calls] at called
          rcases List.mem_cons.mp called with rfl | inside
          · refine rested.frame rfl (after_other fun mine => ?_) rfl
            exact outside (Asymmetric.State.inControl_coroutine mine)
          · exact absurd inside outside
      | _ => simp [step, here] at taken

theorem simulated {trace : List (Label Thread Co Code Exc)}
    (reached : Reaches (step program) allowed (init program) trace s) :
    ∃ a, Reaches (Asymmetric.step program) Asymmetric.allowed (Asymmetric.init program)
      (trace.filterMap Label.observe) a ∧ Related program s a := by
  refine reached.simulates_within Label.observe (Related program) (init_related program) ?_
  intro s label after a related admitted taken
  cases label with
  | internal t => exact .inl ⟨rfl, related.internal_kept taken⟩
  | event move =>
      obtain ⟨a', may, moved, still⟩ := related.event admitted taken
      exact .inr ⟨move, a', rfl, may, moved, still⟩

end Statements

/-- Following the caller contexts from a stack down to the thread's own: each is a
Resume call whose saved `last` is the coroutine that it was made in. -/
inductive Follows (coroutine : Co → Coroutine Thread Co Code Exc) (t : Thread) :
    Body Thread Co → List Co → Prop where
  | bottom : Follows coroutine t (.thread t) []
  | call {c : Co} {stack : Body Thread Co} {rest : Code} {below : List Co}
      (saved : (coroutine c).callerContext = some ⟨stack, .switched c below.head? rest⟩)
      (under : Follows coroutine t stack below) : Follows coroutine t (.coroutine c) (c :: below)

theorem Chained.follows {coroutine : Co → Coroutine Thread Co Code Exc}
    {position : Body Thread Co → Position Co Code Exc} {t : Thread} {calls : List Co}
    (chained : Chained coroutine position t calls) :
    Follows coroutine t (innermost t calls) calls := by
  induction calls with
  | nil => exact .bottom
  | cons c below ih =>
      obtain ⟨k, _, saved⟩ := chained c below (List.suffix_refl _)
      exact .call saved (ih chained.tail)

def Control.callee : Control Co Code Exc → Option Co
  | .resuming callee _ | .switching callee _ _ | .switched callee _ _ | .checking callee _ =>
      some callee
  | _ => none

def Control.last : Control Co Code Exc → Option (Option Co)
  | .switching _ last _ | .switched _ last _ => some last
  | _ => none

/-- The Resume calls in force: each from the exchange that sets `current` to the
one that restores it. -/
def State.inForce (s : State Thread Co Code Exc) (t : Thread) : List Co :=
  match (s.running t).control with
  | .resuming _ _ | .checking _ _ => (s.calls t).tail
  | _ => s.calls t

/-- `current` is the innermost coroutine in force, and the stack of the thread,
with the saved values, leads through exactly its Resume calls in progress. -/
structure Traced (s : State Thread Co Code Exc) (t : Thread) (below : List Co) : Prop where
  calls : s.calls t = (s.running t).control.callee.toList ++ below
  current : s.current t = (s.inForce t).head?
  last : ∀ last, (s.running t).control.last = some last → last = below.head?
  follows : Follows s.coroutine t (s.running t).stack below

section Results
variable {program : Program Thread Co Code Exc} {s : State Thread Co Code Exc}
  {a : Asymmetric.State Thread Co Code Exc}

theorem Related.traced (related : Related program s a) (t : Thread) :
    ∃ below, Traced s t below := by
  have stage := related.stage t
  have calls := congrFun related.calls t
  have force : s.inForce t = match (s.running t).control with
    | .resuming _ _ | .checking _ _ => (s.calls t).tail
    | _ => s.calls t := rfl
  rw [← calls] at stage
  suffices ∃ below, s.calls t = (s.running t).control.callee.toList ++ below ∧
      s.current t = (s.inForce t).head? ∧
      (∀ last, (s.running t).control.last = some last → last = below.head?) ∧
      Follows s.coroutine t (s.running t).stack below by
    obtain ⟨below, calls, current, last, follows⟩ := this
    exact ⟨below, calls, current, last, follows⟩
  rw [force]
  generalize s.running t = context at stage
  generalize s.current t = current at stage
  generalize s.calls t = calls at stage
  generalize a.ended t = ended at stage
  cases stage with
  | code _ chained _ => exact ⟨_, rfl, rfl, by simp [Control.last], chained.follows⟩
  | starting _ chained _ => exact ⟨_, rfl, rfl, by simp [Control.last], chained.follows⟩
  | resuming _ chained _ _ => exact ⟨_, rfl, rfl, by simp [Control.last], chained.follows⟩
  | switching _ chained _ _ =>
      exact ⟨_, rfl, rfl, by simp [Control.last, eq_comm], chained.follows⟩
  | suspending _ chained _ => exact ⟨_, rfl, rfl, by simp [Control.last], chained.follows⟩
  | caught _ chained _ => exact ⟨_, rfl, rfl, by simp [Control.last], chained.follows⟩
  | completing _ _ chained _ _ => exact ⟨_, rfl, rfl, by simp [Control.last], chained.follows⟩
  | exiting _ _ chained _ _ _ => exact ⟨_, rfl, rfl, by simp [Control.last], chained.follows⟩
  | switched _ chained _ _ _ =>
      exact ⟨_, rfl, rfl, by simp [Control.last, eq_comm], chained.follows⟩
  | checking _ chained _ _ _ => exact ⟨_, rfl, rfl, by simp [Control.last], chained.follows⟩
  | finished _ => exact ⟨_, rfl, rfl, by simp [Control.last], .bottom⟩
  | uncaught _ => exact ⟨_, rfl, rfl, by simp [Control.last], .bottom⟩

theorem Related.completed (related : Related program s a) {c : Co}
    (reports : (s.coroutine c).isCompleted = true) : (a.position (.coroutine c)).isOver = true := by
  by_cases idle : ∀ t, c ∉ a.calls t
  · rw [← (related.idle c idle).completed]
    exact reports
  · obtain ⟨t, called⟩ := not_forall_not.mp idle
    have stage := related.stage t
    generalize a.calls t = calls at stage called
    generalize a.ended t = ended at stage
    generalize s.current t = current at stage
    generalize s.running t = context at stage
    have dead {part : List Co} (alive : Alive s.coroutine part) (inside : c ∈ part) : False := by
      rw [(alive c inside).1] at reports
      cases reports
    have met {callee : Co} {below : List Co} (alive : Alive s.coroutine below)
        (rested : Rested program s.coroutine a.position callee) (inside : c ∈ callee :: below) :
        (a.position (.coroutine c)).isOver = true := by
      rcases List.mem_cons.mp inside with rfl | deeper
      · rw [← rested.completed]
        exact reports
      · exact (dead alive deeper).elim
    have stops {d : Co} {below : List Co} (alive : Alive s.coroutine below)
        (ends : (a.position (.coroutine d)).isOver = true) (inside : c ∈ d :: below) :
        (a.position (.coroutine c)).isOver = true := by
      rcases List.mem_cons.mp inside with rfl | deeper
      · exact ends
      · exact (dead alive deeper).elim
    cases stage with
    | code _ _ alive => exact (dead alive called).elim
    | starting _ _ alive => exact (dead alive called).elim
    | suspending _ _ alive => exact (dead alive called).elim
    | caught _ _ alive => exact (dead alive called).elim
    | resuming _ _ alive rested => exact met alive rested called
    | switching _ _ alive rested => exact met alive rested called
    | switched _ _ alive rested _ => exact met alive rested called
    | checking _ _ alive rested _ => exact met alive rested called
    | completing ends _ _ alive _ => exact stops alive ends called
    | exiting ends _ _ alive _ _ => exact stops alive ends called
    | finished _ => cases called
    | uncaught _ => cases called

variable [DecidableEq Thread] [DecidableEq Co] [DecidableEq Exc]

theorem event_pending {s' : State Thread Co Code Exc} {move : Move Thread Co Code Exc}
    (taken : step program s (.event move) = some s') :
    pending (s.running move.thread).control = 0 := by
  obtain ⟨t, body, event⟩ := move
  generalize here : s.running t = context at taken
  obtain ⟨stack, control⟩ := context
  cases event with
  | act action => cases control <;> simp [step, here, pending] at taken ⊢
  | resumed callee thrown => cases control <;> simp [step, here, pending] at taken ⊢

theorem Related.comes_back (related : Related program s a) {t : Thread} {c : Co} {below : List Co}
    {k : Code} {thrown : Option Exc} (calls : a.calls t = c :: below)
    (ended : a.ended t = some thrown) (waits : a.position (innermost t below) = .waiting c k) :
    FinishesAlone (step program) (fun label => label.thread = t)
      (fun s' => s'.running t = ⟨innermost t below, .checking c k⟩ ∧
        (s'.coroutine c).exception = thrown ∧ s'.current t = below.head?) s := by
  -- Each own step is a statement of the implementation and leaves fewer of them.
  generalize left : pending (s.running t).control = n
  induction n using Nat.strongRecOn generalizing s with
  | ind n ih =>
    rcases related.internal t with visible | ⟨next, moved, still, less⟩
    · refine .finished ?_
      have stage := related.stage t
      rw [calls, ended] at stage
      generalize s.running t = context at stage visible
      generalize s.current t = current at stage
      cases stage with
      | checking waits' _ _ _ stored =>
          cases waits.symm.trans waits'
          exact ⟨rfl, stored, rfl⟩
      | _ => simp [pending] at visible
    · refine .goes ⟨.internal t, rfl, by simp [step, moved]⟩ ?_
      intro label after own taken
      cases label with
      | internal t' =>
          cases own
          cases moved.symm.trans taken
          exact ih _ (left ▸ less) still rfl
      | event move =>
          have none_left := event_pending taken
          rw [show move.thread = t from own] at none_left
          omega

def moves (trace : List (Label Thread Co Code Exc)) : List (Move Thread Co Code Exc) :=
  trace.filterMap Label.observe

variable {trace : List (Label Thread Co Code Exc)}

/-- The implementation refines asymmetric coroutines. `current` is the innermost
coroutine in force on each thread, and the saved values lead through its Resume
calls; Suspend goes back into the innermost of them; each Resume runs its
coroutine from one suspension to the next, and the last one completes it. -/
theorem refines_asymmetric_coroutines
    (reached : Reaches (step program) allowed (init program) trace s) :
    ∃ a, Reaches (Asymmetric.step program) Asymmetric.allowed (Asymmetric.init program)
        (moves trace) a ∧ s.calls = a.calls ∧
      (∀ t, ∃ below, Traced s t below) ∧
      (∀ t stack k, s.running t = ⟨stack, .code k⟩ →
        stack = innermost t (s.calls t) ∧ stack = a.inControl t ∧ a.position stack = .code k) ∧
      (∀ t stack rest, s.running t = ⟨stack, .suspending rest⟩ → ∃ c below k,
        stack = .coroutine c ∧ s.calls t = c :: below ∧
        a.position (innermost t below) = .waiting c k ∧
        FinishesAlone (step program) (fun label => label.thread = t)
          (fun s' => s'.running t = ⟨innermost t below, .checking c k⟩ ∧
            (s'.coroutine c).exception = none ∧ s'.current t = below.head?) s) ∧
      ∀ c, Paced a c (rounds c (moves trace)) ∧
        (rounds c (moves trace)).flatMap Round.events = performed (.coroutine c) (moves trace) ∧
        run program.advance (.code (program.payload c)) (performed (.coroutine c) (moves trace)) =
          some (a.position (.coroutine c)) ∧
        ((s.coroutine c).isCompleted = true → (rounds c (moves trace)).length =
          (performed (.coroutine c) (moves trace)).countP Event.suspends + 1) ∧
        ((∀ t, c ∉ s.calls t) → (s.coroutine c).isCompleted = false →
          (rounds c (moves trace)).length =
            (performed (.coroutine c) (moves trace)).countP Event.suspends) := by
  obtain ⟨a, matched, related⟩ := simulated reached
  refine ⟨a, matched, related.calls, related.traced, ?_, ?_, ?_⟩
  · intro t stack k here
    obtain ⟨running, going, point⟩ := related.at_code here
    have held : a.held t = s.calls t := by
      simp [Asymmetric.State.held, going, related.calls]
    exact ⟨held ▸ running.inControl.symm, running.inControl.symm, point⟩
  · intro t stack rest here
    have stage := related.stage t
    rw [here] at stage
    generalize s.current t = current at stage
    generalize calls : a.calls t = within at stage
    generalize outcome : a.ended t = ended at stage
    cases stage with
    | @suspending c below _ _ chained _ =>
        obtain ⟨k, waits, _⟩ := chained c below (List.suffix_refl _)
        exact ⟨c, below, k, rfl, related.calls ▸ calls, waits,
          related.comes_back calls outcome waits⟩
  · intro c
    have recorded := recorded matched
    have counted := resumes_counted (c := c) matched
    refine ⟨recorded.paced c, recorded.whole c, performed_path matched (.coroutine c),
      fun reports => counted.1 (related.completed reports), fun idle unfinished => ?_⟩
    rw [related.calls] at idle
    exact counted.2 ((related.idle c idle).completed ▸ unfinished) idle

end Results

/-- Coroutine `true` resumes `false`, catches its exception, suspends in the handler
and throws it again; thread `false` resumes `true` first, then thread `true`, which
catches. -/
def exceptionsHard : Program Bool Bool ℕ ℕ where
  main t := if t then 10 else 0
  payload c := if c then 20 else 30
  does k action := decide (action =
    match k with
    | 0 => .resume true 1
    | 10 => .resume true 11
    | 12 => .segment 1
    | 20 => .resume false 21
    | 22 => .suspend 23
    | 23 => .throw 1
    | 30 => .throw 1
    | _ => .finish)
  handler k _ :=
    match k with
    | 11 => some 12
    | 21 => some 22
    | _ => none

/-- Thread 1 has resumed what thread 0 left suspended, up to its end. -/
theorem refines_asymmetric_coroutines_migrated :
    ∃ (trace : List (Label Bool Bool ℕ ℕ)) (s : State Bool Bool ℕ ℕ),
      run (restricted (step exceptionsHard) allowed) (init exceptionsHard) trace = some s ∧
      (s.coroutine true).isCompleted = true ∧ (∃ below, Traced s true below) ∧
      (rounds true (moves trace)).length =
        (performed (.coroutine true) (moves trace)).countP Event.suspends + 1 := by
  have ran : run (restricted (step exceptionsHard) allowed) (init exceptionsHard)
      [.event ⟨false, .thread false, .act (.resume true 1)⟩, .internal false,
        .internal false, .internal false,
        .event ⟨false, .coroutine true, .act (.resume false 21)⟩, .internal false,
        .internal false, .internal false, .event ⟨false, .coroutine false, .act (.throw 1)⟩,
        .internal false, .internal false, .internal false, .internal false,
        .event ⟨false, .coroutine true, .resumed false (some 1)⟩,
        .event ⟨false, .coroutine true, .act (.suspend 23)⟩, .internal false, .internal false,
        .event ⟨false, .thread false, .resumed true none⟩,
        .event ⟨true, .thread true, .act (.resume true 11)⟩, .internal true, .internal true,
        .event ⟨true, .coroutine true, .act (.throw 1)⟩, .internal true,
        .internal true] = some _ := rfl
  obtain ⟨_, _, _, traced, _, _, counted⟩ := refines_asymmetric_coroutines (run_reaches ran)
  obtain ⟨_, _, _, completed, _⟩ := counted true
  exact ⟨_, _, ran, rfl, traced true, completed rfl⟩

section Exceptions
variable [DecidableEq Thread] [DecidableEq Co] [DecidableEq Exc]
variable {program : Program Thread Co Code Exc} {s : State Thread Co Code Exc}
  {trace : List (Label Thread Co Code Exc)}

/-- Exceptions cross Resume as they cross a call. A Resume throws exactly when the
body came to its end with that exception in the round of this very call; its
coroutine then reports completion, `current` is the coroutine of the calling body,
and that body goes on at its handler or passes the exception on. A Resume that
ends in a suspension or a return does not throw. -/
theorem exceptions_cross_resume
    (reached : Reaches (step program) allowed (init program) trace s) :
    (∀ t body callee thrown s',
      step program s (.event ⟨t, body, .resumed callee thrown⟩) = some s' →
      ∃ early last before after rest, rounds callee (moves trace) = early ++ [last] ∧
        last.thread = t ∧ last.caller = body ∧
        run program.advance (.code (program.payload callee)) (early.flatMap Round.events) =
          some (.code before) ∧
        run program.advance (.code before) last.events = some after ∧
        (∀ e, thrown = some e ↔ after = .threw e) ∧
        (thrown = none ↔ Suspended last.events ∨ after = .finished) ∧
        (thrown ≠ none → (s.coroutine callee).isCompleted = true) ∧
        s.current t = body.coroutine? ∧ s'.current t = body.coroutine? ∧
        s.running t = ⟨body, .checking callee rest⟩ ∧
        s'.running t = ⟨body, land body (program.afterResume rest thrown)⟩) ∧
    ∀ t stack e, s.running t = ⟨stack, .caught e⟩ → ∃ c below k, stack = .coroutine c ∧
      s.calls t = c :: below ∧
      FinishesAlone (step program) (fun label => label.thread = t)
        (fun s' => s'.running t = ⟨innermost t below, .checking c k⟩ ∧
          (s'.coroutine c).exception = some e ∧ s'.current t = below.head?) s := by
  obtain ⟨a, matched, related⟩ := simulated reached
  constructor
  · intro t body callee thrown s' taken
    generalize here : s.running t = context at taken
    obtain ⟨stack, control⟩ := context
    cases control with
    | checking c rest =>
        simp only [step, here, guarded_eq_some] at taken
        obtain ⟨⟨rfl, rfl, rfl⟩, rfl⟩ := taken
        obtain ⟨running, calls, ended, waits, rested⟩ := related.at_checking here
        obtain ⟨early, last, before, same, thread, caller, first, ran, full⟩ :=
          round_over matched calls ended
        have enclosing : s.current t = body.coroutine? := by
          rw [running.current, ← running.inControl, Asymmetric.State.inControl]
          cases a.held t <;> rfl
        refine ⟨early, last, before, _, rest, same, thread,
          caller.trans running.inControl, first, ran, ?_, ?_, ?_, enclosing, enclosing, rfl, ?_⟩
        · intro e
          rw [rested.thrown]
          exact Position.thrown_eq_some
        · rw [rested.thrown]
          constructor
          · intro quiet
            cases ends : (a.position (.coroutine callee)).isOver with
            | false => exact .inl (full ends)
            | true => exact .inr (Position.finished_of_quiet ends quiet)
          · rintro (suspended | returned)
            · obtain ⟨k, point⟩ := suspended.leads ran
              rw [point]
              rfl
            · rw [returned]
              rfl
        · intro throws
          rw [rested.thrown] at throws
          rw [rested.completed]
          exact Position.over_of_thrown throws
        · simp [State.goto]
    | _ => simp [step, here] at taken
  · intro t stack e here
    have stage := related.stage t
    rw [here] at stage
    generalize s.current t = current at stage
    generalize calls : a.calls t = within at stage
    generalize outcome : a.ended t = ended at stage
    cases stage with
    | @caught c below _ _ chained _ =>
        obtain ⟨k, waits, _⟩ := chained c below (List.suffix_refl _)
        exact ⟨c, below, k, rfl, related.calls ▸ calls, related.comes_back calls outcome waits⟩

end Exceptions

/-- The exception thrown again leaves the Resume of the second thread, whose handler goes on. -/
theorem exceptions_cross_resume_hard :
    ∃ (trace : List (Label Bool Bool ℕ ℕ)) (s s' : State Bool Bool ℕ ℕ),
      run (restricted (step exceptionsHard) allowed) (init exceptionsHard) trace = some s ∧
      step exceptionsHard s (.event ⟨true, .thread true, .resumed true (some 1)⟩) = some s' ∧
      (s.coroutine true).isCompleted = true ∧ s.current true = none ∧
      s'.running true = ⟨.thread true, .code 12⟩ := by
  have ran : run (restricted (step exceptionsHard) allowed) (init exceptionsHard)
      [.event ⟨false, .thread false, .act (.resume true 1)⟩, .internal false,
        .internal false, .internal false,
        .event ⟨false, .coroutine true, .act (.resume false 21)⟩, .internal false,
        .internal false, .internal false, .event ⟨false, .coroutine false, .act (.throw 1)⟩,
        .internal false, .internal false, .internal false, .internal false,
        .event ⟨false, .coroutine true, .resumed false (some 1)⟩,
        .event ⟨false, .coroutine true, .act (.suspend 23)⟩, .internal false, .internal false,
        .event ⟨false, .thread false, .resumed true none⟩,
        .event ⟨true, .thread true, .act (.resume true 11)⟩, .internal true, .internal true,
        .event ⟨true, .coroutine true, .act (.throw 1)⟩, .internal true, .internal true,
        .internal true, .internal true] = some _ := rfl
  obtain ⟨_, _, _, _, _, _, _, _, _, _, _, _, completed, enclosing, _⟩ :=
    (exceptions_cross_resume (run_reaches ran)).1 true (.thread true) true (some 1) _ rfl
  exact ⟨_, _, _, ran, rfl, completed (by simp), enclosing, rfl⟩

end ConcurrencyCourse.StackfulCoroutine
