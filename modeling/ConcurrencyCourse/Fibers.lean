import ConcurrencyCourse.StackfulCoroutine

/-!
Fibers on the worker threads of a pool. A fiber is a stackful coroutine with a
stack of its own; Dispatch resumes it as a task of the scheduler, Yield submits the
next Dispatch as a continuation and suspends. Below the fibers runs the machine of
the coroutines: the worker loop with Dispatch is the workers' own code there, the
routine with Spawn and Yield is the code of the coroutines, and each statement here
is an event of that machine together with what it does to `current_fiber`, the
tasks, the stacks and the fibers. A task says which worker's running task has to
return before it is available; Submit asks for none.
-/

namespace ConcurrencyCourse.Fibers

open Interleaving Asymmetric
open StackfulCoroutine (constructed)

variable {Worker Fiber K : Type*}

inductive Action (K : Type*) where
  | segment (rest : K)
  | spawn (routine rest : K)
  | yield (rest : K)
  | finish
  deriving DecidableEq

inductive Code (Fiber K : Type*) where
  -- io_context::run
  | idle
  | returned
  -- Dispatch and Destroy
  | dispatch (f : Fiber)
  | resume (f : Fiber) (prev : Option Fiber)
  | restore (f : Fiber) (prev : Option Fiber)
  | check (f : Fiber)
  | release (f : Fiber)
  | delete (f : Fiber)
  -- A routine, inside Spawn, inside Yield
  | routine (k : K)
  | schedule (f : Fiber) (rest : K)
  | suspend (rest : K)

def program [DecidableEq Fiber] [DecidableEq K] (does : K → Action K → Bool)
    (payload : Fiber → K) : Program Worker Fiber (Code Fiber K) Empty where
  main _ := .idle
  payload f := .routine (payload f)
  does k action :=
    match k, action with
    | _, .segment _ => true
    | .resume f prev, .resume callee (.restore f' prev') =>
        decide (callee = f ∧ f' = f ∧ prev' = prev)
    | .suspend rest, .suspend (.routine rest') => decide (rest' = rest)
    | .routine k, .finish => does k .finish
    | _, _ => false
  handler _ _ := none

/-- A pending Dispatch task, available once the task that `after` runs has returned. -/
structure Task (Worker Fiber : Type*) where
  fiber : Fiber
  after : Option Worker
  deriving DecidableEq

/-- A fiber that a thread has constructed is scheduled by that thread; `none` is a
thread outside the pool. -/
inductive Life (Worker : Type*) where
  | unborn
  | built (builder : Option Worker)
  | scheduled
  | destroyed

/-- `executes` is the fiber whose Dispatch each worker is in, `life` what has become
of each fiber; no code reads these two. Fibers are identities: an address that is
used again is another fiber. -/
structure Runtime (Worker Fiber : Type*) where
  currentFiber : Worker → Option Fiber
  tasks : List (Task Worker Fiber)
  fiberStack : Fiber → Option ℕ
  pool : Worker → List ℕ
  allocated : ℕ
  executes : Worker → Option Fiber
  life : Fiber → Life Worker

structure State (Worker Fiber K : Type*) where
  coroutines : StackfulCoroutine.State Worker Fiber (Code Fiber K) Empty
  payload : Fiber → K
  runtime : Runtime Worker Fiber

inductive Statement (Fiber K : Type*) where
  | take (f : Fiber)
  | enter
  | resume
  | resumed (f : Fiber)
  | restore
  | check
  | release (f : Fiber)
  | delete (f : Fiber)
  | leave
  | segment (rest : K)
  | spawn (f : Fiber) (routine rest : K)
  | schedule (f : Fiber)
  | yield (rest : K)
  | suspend
  | finish (f : Fiber)

inductive Label (Worker Fiber K : Type*) where
  | internal (w : Worker)
  | statement (w : Worker) (statement : Statement Fiber K)
  | outsideSpawn (f : Fiber) (routine : K)
  | outsideSubmit (f : Fiber)

section Machine
variable [DecidableEq Worker] [DecidableEq Fiber] [DecidableEq K]

namespace Runtime
variable (r : Runtime Worker Fiber)

def setCurrentFiber (w : Worker) (f : Option Fiber) : Runtime Worker Fiber :=
  { r with
    currentFiber := Function.update r.currentFiber w f }

def setExecutes (w : Worker) (f : Option Fiber) : Runtime Worker Fiber :=
  { r with
    executes := Function.update r.executes w f }

def setLife (f : Fiber) (life : Life Worker) : Runtime Worker Fiber :=
  { r with
    life := Function.update r.life f life }

def setTasks (tasks : List (Task Worker Fiber)) : Runtime Worker Fiber :=
  { r with
    tasks := tasks }

def submit (f : Fiber) (after : Option Worker) : Runtime Worker Fiber :=
  r.setTasks (r.tasks ++ [⟨f, after⟩])

/-- AcquireStack on a worker: the last stack of its pool, or a new one. -/
def acquireStack (w : Worker) (f : Fiber) : Runtime Worker Fiber :=
  match r.pool w with
  | stack :: rest =>
      { r with
        fiberStack := Function.update r.fiberStack f (some stack)
        pool := Function.update r.pool w rest }
  | [] =>
      { r with
        fiberStack := Function.update r.fiberStack f (some r.allocated)
        allocated := r.allocated + 1 }

/-- AcquireStack on a thread that runs no fibers, so that its pool is empty. -/
def allocateStack (f : Fiber) : Runtime Worker Fiber :=
  { r with
    fiberStack := Function.update r.fiberStack f (some r.allocated)
    allocated := r.allocated + 1 }

def releaseStack (w : Worker) (f : Fiber) (stack : ℕ) : Runtime Worker Fiber :=
  { r with
    fiberStack := Function.update r.fiberStack f none
    pool := Function.update r.pool w (stack :: r.pool w) }

def settle (w : Worker) (task : Task Worker Fiber) : Task Worker Fiber :=
  if task.after = some w then ⟨task.fiber, none⟩ else task

end Runtime

def init (does : K → Action K → Bool) (payload : Fiber → K) : State Worker Fiber K where
  coroutines := StackfulCoroutine.init (program does payload)
  payload := payload
  runtime :=
    { currentFiber := fun _ => none
      tasks := []
      fiberStack := fun _ => none
      pool := fun _ => []
      allocated := 0
      executes := fun _ => none
      life := fun _ => .unborn }

namespace State
variable (s : State Worker Fiber K)

def code (w : Worker) : Option (Code Fiber K) :=
  match (s.coroutines.running w).control with
  | .code k => some k
  | _ => none

def stack (w : Worker) : Body Worker Fiber :=
  (s.coroutines.running w).stack

/-- The body on a worker does an event of its own, with an effect on the runtime. -/
def event (does : K → Action K → Bool) (w : Worker) (event : Event Fiber (Code Fiber K) Empty)
    (after : Runtime Worker Fiber) : Option (State Worker Fiber K) :=
  (StackfulCoroutine.step (program does s.payload) s.coroutines
    (.event ⟨w, s.stack w, event⟩)).map fun coroutines => ⟨coroutines, s.payload, after⟩

def goto (does : K → Action K → Bool) (w : Worker) (k : Code Fiber K)
    (after : Runtime Worker Fiber) : Option (State Worker Fiber K) :=
  s.event does w (.act (.segment k)) after

def construct (f : Fiber) (routine : K) : State Worker Fiber K :=
  { s with
    coroutines := s.coroutines.setCoroutine f (constructed f)
    payload := Function.update s.payload f routine }

end State

def stepStatement (does : K → Action K → Bool) (s : State Worker Fiber K) (w : Worker) :
    Statement Fiber K → Code Fiber K → Option (State Worker Fiber K)
  | .take f, .idle =>
      if ⟨f, none⟩ ∈ s.runtime.tasks then
        s.goto does w (.dispatch f)
          ((s.runtime.setTasks (s.runtime.tasks.erase ⟨f, none⟩)).setExecutes w (some f))
      else none
  | .enter, .dispatch f =>
      s.goto does w (.resume f (s.runtime.currentFiber w)) (s.runtime.setCurrentFiber w (some f))
  | .resume, .resume f prev => s.event does w (.act (.resume f (.restore f prev))) s.runtime
  | .restore, .restore f prev => s.goto does w (.check f) (s.runtime.setCurrentFiber w prev)
  | .check, .check f =>
      if (s.coroutines.coroutine f).isCompleted then s.goto does w (.release f) s.runtime
      else s.goto does w .returned (s.runtime.setExecutes w none)
  | .release f, .release f' =>
      if f = f' then
        (s.runtime.fiberStack f).bind fun stack =>
          s.goto does w (.delete f) (s.runtime.releaseStack w f stack)
      else none
  | .delete f, .delete f' =>
      if f = f' then
        s.goto does w .returned ((s.runtime.setLife f .destroyed).setExecutes w none)
      else none
  | .leave, .returned =>
      s.goto does w .idle (s.runtime.setTasks (s.runtime.tasks.map (Runtime.settle w)))
  | .segment rest, .routine k =>
      if does k (.segment rest) then s.goto does w (.routine rest) s.runtime else none
  | .spawn f routine rest, .routine k =>
      match s.runtime.life f with
      | .unborn =>
          if does k (.spawn routine rest) then
            (s.goto does w (.schedule f rest)
              ((s.runtime.acquireStack w f).setLife f (.built (some w)))).map
                fun s' => s'.construct f routine
          else none
      | _ => none
  | .schedule f, .schedule f' rest =>
      if f = f' then
        s.goto does w (.routine rest) ((s.runtime.submit f none).setLife f .scheduled)
      else none
  | .yield rest, .routine k =>
      if does k (.yield rest) then
        (s.runtime.currentFiber w).bind fun f =>
          s.goto does w (.suspend rest) (s.runtime.submit f (some w))
      else none
  | .suspend, .suspend rest => s.event does w (.act (.suspend (.routine rest))) s.runtime
  | .finish f, .routine _ =>
      if s.stack w = .coroutine f then s.event does w (.act .finish) s.runtime else none
  | _, _ => none

def step (does : K → Action K → Bool) (s : State Worker Fiber K) :
    Label Worker Fiber K → Option (State Worker Fiber K)
  | .internal w =>
      (StackfulCoroutine.step (program does s.payload) s.coroutines (.internal w)).map
        fun coroutines => ⟨coroutines, s.payload, s.runtime⟩
  | .statement w (.resumed f) => s.event does w (.resumed f none) s.runtime
  | .statement w statement => (s.code w).bind (stepStatement does s w statement)
  | .outsideSpawn f routine =>
      match s.runtime.life f with
      | .unborn =>
          some { s.construct f routine with
            runtime := (s.runtime.allocateStack f).setLife f (.built none) }
      | _ => none
  | .outsideSubmit f =>
      match s.runtime.life f with
      | .built none =>
          some { s with
            runtime := (s.runtime.submit f none).setLife f .scheduled }
      | _ => none

end Machine

section Effects
variable [DecidableEq Worker] [DecidableEq Fiber] [DecidableEq K]

/-- Each statement: the code it stands at, what it asks for and where it leads. -/
inductive Executes (does : K → Action K → Bool) (s : State Worker Fiber K) (w : Worker) :
    Statement Fiber K → Code Fiber K → State Worker Fiber K → Prop where
  | take {f : Fiber} {s' : State Worker Fiber K} (pending : ⟨f, none⟩ ∈ s.runtime.tasks)
      (moved : s.goto does w (.dispatch f)
        ((s.runtime.setTasks (s.runtime.tasks.erase ⟨f, none⟩)).setExecutes w (some f)) = some s') :
      Executes does s w (.take f) .idle s'
  | enter {f : Fiber} {s' : State Worker Fiber K}
      (moved : s.goto does w (.resume f (s.runtime.currentFiber w))
        (s.runtime.setCurrentFiber w (some f)) = some s') :
      Executes does s w .enter (.dispatch f) s'
  | resume {f : Fiber} {prev : Option Fiber} {s' : State Worker Fiber K}
      (moved : s.event does w (.act (.resume f (.restore f prev))) s.runtime = some s') :
      Executes does s w .resume (.resume f prev) s'
  | restore {f : Fiber} {prev : Option Fiber} {s' : State Worker Fiber K}
      (moved : s.goto does w (.check f) (s.runtime.setCurrentFiber w prev) = some s') :
      Executes does s w .restore (.restore f prev) s'
  | completed {f : Fiber} {s' : State Worker Fiber K}
      (reports : (s.coroutines.coroutine f).isCompleted = true)
      (moved : s.goto does w (.release f) s.runtime = some s') :
      Executes does s w .check (.check f) s'
  | yielded {f : Fiber} {s' : State Worker Fiber K}
      (silent : ¬ (s.coroutines.coroutine f).isCompleted = true)
      (moved : s.goto does w .returned (s.runtime.setExecutes w none) = some s') :
      Executes does s w .check (.check f) s'
  | release {f : Fiber} {stack : ℕ} {s' : State Worker Fiber K}
      (owned : s.runtime.fiberStack f = some stack)
      (moved : s.goto does w (.delete f) (s.runtime.releaseStack w f stack) = some s') :
      Executes does s w (.release f) (.release f) s'
  | delete {f : Fiber} {s' : State Worker Fiber K}
      (moved : s.goto does w .returned ((s.runtime.setLife f .destroyed).setExecutes w none) =
        some s') : Executes does s w (.delete f) (.delete f) s'
  | leave {s' : State Worker Fiber K}
      (moved : s.goto does w .idle (s.runtime.setTasks (s.runtime.tasks.map (Runtime.settle w))) =
        some s') : Executes does s w .leave .returned s'
  | segment {k rest : K} {s' : State Worker Fiber K} (may : does k (.segment rest) = true)
      (moved : s.goto does w (.routine rest) s.runtime = some s') :
      Executes does s w (.segment rest) (.routine k) s'
  | spawn {f : Fiber} {k routine rest : K} {next : State Worker Fiber K}
      (unborn : s.runtime.life f = .unborn) (may : does k (.spawn routine rest) = true)
      (moved : s.goto does w (.schedule f rest)
        ((s.runtime.acquireStack w f).setLife f (.built (some w))) = some next) :
      Executes does s w (.spawn f routine rest) (.routine k) (next.construct f routine)
  | schedule {f : Fiber} {rest : K} {s' : State Worker Fiber K}
      (moved : s.goto does w (.routine rest) ((s.runtime.submit f none).setLife f .scheduled) =
        some s') : Executes does s w (.schedule f) (.schedule f rest) s'
  | yield {f : Fiber} {k rest : K} {s' : State Worker Fiber K} (may : does k (.yield rest) = true)
      (current : s.runtime.currentFiber w = some f)
      (moved : s.goto does w (.suspend rest) (s.runtime.submit f (some w)) = some s') :
      Executes does s w (.yield rest) (.routine k) s'
  | suspend {rest : K} {s' : State Worker Fiber K}
      (moved : s.event does w (.act (.suspend (.routine rest))) s.runtime = some s') :
      Executes does s w .suspend (.suspend rest) s'
  | finish {f : Fiber} {k : K} {s' : State Worker Fiber K} (mine : s.stack w = .coroutine f)
      (moved : s.event does w (.act .finish) s.runtime = some s') :
      Executes does s w (.finish f) (.routine k) s'

/-- What the statements do to the runtime. -/
inductive Effect (r : Runtime Worker Fiber) (w : Worker) :
    Statement Fiber K → Runtime Worker Fiber → Prop where
  | take {f : Fiber} (pending : ⟨f, none⟩ ∈ r.tasks) :
      Effect r w (.take f) ((r.setTasks (r.tasks.erase ⟨f, none⟩)).setExecutes w (some f))
  | enter (f : Fiber) : Effect r w .enter (r.setCurrentFiber w (some f))
  | resume : Effect r w .resume r
  | resumed (f : Fiber) : Effect r w (.resumed f) r
  | restore (prev : Option Fiber) : Effect r w .restore (r.setCurrentFiber w prev)
  | completed : Effect r w .check r
  | yielded : Effect r w .check (r.setExecutes w none)
  | release {f : Fiber} {stack : ℕ} (owned : r.fiberStack f = some stack) :
      Effect r w (.release f) (r.releaseStack w f stack)
  | delete (f : Fiber) : Effect r w (.delete f) ((r.setLife f .destroyed).setExecutes w none)
  | leave : Effect r w .leave (r.setTasks (r.tasks.map (Runtime.settle w)))
  | segment (rest : K) : Effect r w (.segment rest) r
  | spawn {f : Fiber} (routine rest : K) (unborn : r.life f = .unborn) :
      Effect r w (.spawn f routine rest) ((r.acquireStack w f).setLife f (.built (some w)))
  | schedule (f : Fiber) : Effect r w (.schedule f) ((r.submit f none).setLife f .scheduled)
  | yield {f : Fiber} (rest : K) (current : r.currentFiber w = some f) :
      Effect r w (.yield rest) (r.submit f (some w))
  | suspend : Effect r w .suspend r
  | finish (f : Fiber) : Effect r w (.finish f) r

variable {does : K → Action K → Bool} {s s' : State Worker Fiber K} {w : Worker}
  {statement : Statement Fiber K}

/-- The inversion of a statement: no proof about the fibers unfolds one again. -/
theorem stepStatement_executes {k : Code Fiber K}
    (taken : stepStatement does s w statement k = some s') : Executes does s w statement k s' := by
  cases statement with
  | take f =>
      cases k with
      | idle =>
          obtain ⟨pending, moved⟩ := Option.ite_none_right_eq_some.mp taken
          exact .take pending moved
      | _ => cases taken
  | enter =>
      cases k with
      | dispatch f => exact .enter taken
      | _ => cases taken
  | resume =>
      cases k with
      | resume f prev => exact .resume taken
      | _ => cases taken
  | resumed f => cases k <;> cases taken
  | restore =>
      cases k with
      | restore f prev => exact .restore taken
      | _ => cases taken
  | check =>
      cases k with
      | check f =>
          rcases ite_eq_iff.mp taken with ⟨reports, moved⟩ | ⟨silent, moved⟩
          · exact .completed reports moved
          · exact .yielded silent moved
      | _ => cases taken
  | release f =>
      cases k with
      | release f' =>
          obtain ⟨rfl, goes⟩ := Option.ite_none_right_eq_some.mp taken
          obtain ⟨stack, owned, moved⟩ := Option.bind_eq_some_iff.mp goes
          exact .release owned moved
      | _ => cases taken
  | delete f =>
      cases k with
      | delete f' =>
          obtain ⟨rfl, moved⟩ := Option.ite_none_right_eq_some.mp taken
          exact .delete moved
      | _ => cases taken
  | leave =>
      cases k with
      | returned => exact .leave taken
      | _ => cases taken
  | segment rest =>
      cases k with
      | routine k =>
          obtain ⟨may, moved⟩ := Option.ite_none_right_eq_some.mp taken
          exact .segment may moved
      | _ => cases taken
  | spawn f routine rest =>
      cases k with
      | routine k =>
          simp only [stepStatement] at taken
          split at taken
          · rename_i unborn
            obtain ⟨may, made⟩ := Option.ite_none_right_eq_some.mp taken
            obtain ⟨next, moved, rfl⟩ := Option.map_eq_some_iff.mp made
            exact .spawn unborn may moved
          · cases taken
      | _ => cases taken
  | schedule f =>
      cases k with
      | schedule f' rest =>
          obtain ⟨rfl, moved⟩ := Option.ite_none_right_eq_some.mp taken
          exact .schedule moved
      | _ => cases taken
  | yield rest =>
      cases k with
      | routine k =>
          obtain ⟨may, goes⟩ := Option.ite_none_right_eq_some.mp taken
          obtain ⟨f, current, moved⟩ := Option.bind_eq_some_iff.mp goes
          exact .yield may current moved
      | _ => cases taken
  | suspend =>
      cases k with
      | suspend rest => exact .suspend taken
      | _ => cases taken
  | finish f =>
      cases k with
      | routine k =>
          obtain ⟨mine, moved⟩ := Option.ite_none_right_eq_some.mp taken
          exact .finish mine moved
      | _ => cases taken

/-- A statement is the return of a Resume, or executed at the code of its worker. -/
theorem statement_executes (taken : step does s (.statement w statement) = some s') :
    (∃ f, statement = .resumed f ∧ s.event does w (.resumed f none) s.runtime = some s') ∨
      ∃ k, s.code w = some k ∧ Executes does s w statement k s' := by
  cases statement with
  | resumed f => exact .inl ⟨f, rfl, taken⟩
  | _ =>
      obtain ⟨k, here, moved⟩ := Option.bind_eq_some_iff.mp taken
      exact .inr ⟨k, here, stepStatement_executes moved⟩

theorem event_runtime {e : Event Fiber (Code Fiber K) Empty} {after : Runtime Worker Fiber}
    (taken : s.event does w e after = some s') : s'.runtime = after := by
  obtain ⟨_, _, rfl⟩ := Option.map_eq_some_iff.mp taken
  rfl

theorem Executes.effect {k : Code Fiber K} (executes : Executes does s w statement k s') :
    Effect s.runtime w statement s'.runtime := by
  cases executes with
  | take pending moved => exact event_runtime moved ▸ .take pending
  | @enter f _ moved => exact event_runtime moved ▸ .enter f
  | resume moved => exact event_runtime moved ▸ .resume
  | @restore _ prev _ moved => exact event_runtime moved ▸ .restore prev
  | completed _ moved => exact event_runtime moved ▸ .completed
  | yielded _ moved => exact event_runtime moved ▸ .yielded
  | release owned moved => exact event_runtime moved ▸ .release owned
  | @delete f _ moved => exact event_runtime moved ▸ .delete f
  | leave moved => exact event_runtime moved ▸ .leave
  | @segment _ rest _ _ moved => exact event_runtime moved ▸ .segment rest
  | @spawn f _ routine rest next unborn _ moved =>
      change Effect s.runtime w (.spawn f routine rest) next.runtime
      rw [event_runtime moved]
      exact .spawn routine rest unborn
  | @schedule f _ _ moved => exact event_runtime moved ▸ .schedule f
  | @yield _ _ rest _ _ current moved => exact event_runtime moved ▸ .yield rest current
  | suspend moved => exact event_runtime moved ▸ .suspend
  | @finish f _ _ _ moved => exact event_runtime moved ▸ .finish f

theorem statement_effect (taken : step does s (.statement w statement) = some s') :
    Effect s.runtime w statement s'.runtime := by
  rcases statement_executes taken with ⟨f, rfl, moved⟩ | ⟨k, _, executes⟩
  · exact event_runtime moved ▸ .resumed f
  · exact executes.effect

end Effects

/-- What a run says of a fiber: its Submit, the return of its routine, the release of
its stack, its end. -/
inductive Mark where
  | submitted
  | finished
  | released
  | destroyed
  deriving DecidableEq

def Statement.mark : Statement Fiber K → Option (Mark × Fiber)
  | .schedule f => some (.submitted, f)
  | .finish f => some (.finished, f)
  | .release f => some (.released, f)
  | .delete f => some (.destroyed, f)
  | _ => none

def Label.mark : Label Worker Fiber K → Option (Mark × Fiber)
  | .statement _ executed => executed.mark
  | .outsideSubmit f => some (.submitted, f)
  | _ => none

def history (trace : List (Label Worker Fiber K)) : List (Mark × Fiber) :=
  trace.filterMap Label.mark

end ConcurrencyCourse.Fibers
