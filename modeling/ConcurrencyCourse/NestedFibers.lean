import ConcurrencyCourse.OneFuture

/-!
Fibers whose routines run coroutines of their own. The coroutines of a worker are the
fibers' and the SimpleCoroutines that the routines resume, nested to any depth; a body of
either kind may call Spawn and Yield. Yield submits the next Dispatch of the fiber that
`current_fiber` names and then calls Suspend, which is static: it suspends the coroutine
that `current` names, whether that is the fiber's or not.
-/

namespace ConcurrencyCourse.NestedFibers

open Interleaving Asymmetric
open StackfulCoroutine (constructed)
open Fibers (Code Task Life Runtime Statement)

variable {Worker Fiber Inner K Exc : Type*}

inductive Action (Inner K Exc : Type*) where
  | segment (rest : K)
  | spawn (routine rest : K)
  | yield (rest : K)
  | resume (callee : Inner) (rest : K)
  | suspend (rest : K)
  | throw (e : Exc)
  | finish
  deriving DecidableEq

structure Language (Inner K Exc : Type*) where
  does : K → Action Inner K Exc → Bool
  handler : K → Exc → Option K
  body : Inner → K

def program [DecidableEq Fiber] [DecidableEq K] (language : Language Inner K Exc)
    (payload : Fiber → K) : Program Worker (Fiber ⊕ Inner) (Code Fiber K) Exc where
  main _ := .idle
  payload
    | .inl f => .routine (payload f)
    | .inr c => .routine (language.body c)
  does k action :=
    match k, action with
    | _, .segment _ => true
    | .resume f prev, .resume (.inl callee) (.restore f' prev') =>
        decide (callee = f ∧ f' = f ∧ prev' = prev)
    | .suspend rest, .suspend (.routine rest') => decide (rest' = rest)
    | .routine k, .resume (.inr callee) (.routine rest) => language.does k (.resume callee rest)
    | .routine k, .suspend (.routine rest) => language.does k (.suspend rest)
    | .routine k, .throw e => language.does k (.throw e)
    | .routine k, .finish => language.does k .finish
    | _, _ => false
  handler
    | .routine k, e => (language.handler k e).map .routine
    | _, _ => none

structure State (Worker Fiber Inner K Exc : Type*) where
  coroutines : StackfulCoroutine.State Worker (Fiber ⊕ Inner) (Code Fiber K) Exc
  payload : Fiber → K
  runtime : Runtime Worker Fiber

inductive Nested (Inner K Exc : Type*) where
  | resume (callee : Inner) (rest : K)
  | resumed (callee : Inner) (thrown : Option Exc)
  | suspend (rest : K)
  | throw (e : Exc)
  | finish (c : Inner)

inductive Label (Worker Fiber Inner K Exc : Type*) where
  | internal (w : Worker)
  | statement (w : Worker) (statement : Statement Fiber K)
  | nested (w : Worker) (nested : Nested Inner K Exc)
  | outsideSpawn (f : Fiber) (routine : K)
  | outsideSubmit (f : Fiber)

def Label.worker : Label Worker Fiber Inner K Exc → Option Worker
  | internal w => some w
  | statement w _ => some w
  | nested w _ => some w
  | outsideSpawn _ _ => none
  | outsideSubmit _ => none

section Machine
variable [DecidableEq Worker] [DecidableEq Fiber] [DecidableEq Inner] [DecidableEq K]
  [DecidableEq Exc]

def init (language : Language Inner K Exc) (payload : Fiber → K) :
    State Worker Fiber Inner K Exc where
  coroutines := StackfulCoroutine.init (program language payload)
  payload := payload
  runtime := (Fibers.init (fun _ _ => true) payload).runtime

namespace State
variable (s : State Worker Fiber Inner K Exc)

def code (w : Worker) : Option (Code Fiber K) :=
  match (s.coroutines.running w).control with
  | .code k => some k
  | _ => none

def stack (w : Worker) : Body Worker (Fiber ⊕ Inner) :=
  (s.coroutines.running w).stack

def event (language : Language Inner K Exc) (w : Worker)
    (event : Event (Fiber ⊕ Inner) (Code Fiber K) Exc) (after : Runtime Worker Fiber) :
    Option (State Worker Fiber Inner K Exc) :=
  (StackfulCoroutine.step (program language s.payload) s.coroutines
    (.event ⟨w, s.stack w, event⟩)).map fun coroutines => ⟨coroutines, s.payload, after⟩

def goto (language : Language Inner K Exc) (w : Worker) (k : Code Fiber K)
    (after : Runtime Worker Fiber) : Option (State Worker Fiber Inner K Exc) :=
  s.event language w (.act (.segment k)) after

def construct (f : Fiber) (routine : K) : State Worker Fiber Inner K Exc :=
  { s with
    coroutines := s.coroutines.setCoroutine (.inl f) (constructed (.inl f))
    payload := Function.update s.payload f routine }

/-- An exception that would leave a fiber's routine leaves Dispatch and its task as well,
and ends the program. -/
def contained (language : Language Inner K Exc) (w : Worker) (k : K) : Option Exc → Bool
  | none => true
  | some e => match s.stack w with
      | .coroutine (.inl _) => (language.handler k e).isSome
      | _ => true

end State

def stepStatement (language : Language Inner K Exc) (s : State Worker Fiber Inner K Exc)
    (w : Worker) : Statement Fiber K → Code Fiber K → Option (State Worker Fiber Inner K Exc)
  | .take f, .idle =>
      if s.runtime.tasks.contains ⟨f, none⟩ then
        s.goto language w (.dispatch f)
          ((s.runtime.setTasks (s.runtime.tasks.erase ⟨f, none⟩)).setExecutes w (some f))
      else none
  -- Dispatch and Destroy
  | .enter, .dispatch f =>
      s.goto language w (.resume f (s.runtime.currentFiber w))
        (s.runtime.setCurrentFiber w (some f))
  | .resume, .resume f prev =>
      s.event language w (.act (.resume (.inl f) (.restore f prev))) s.runtime
  | .restore, .restore f prev =>
      s.goto language w (.check f) (s.runtime.setCurrentFiber w prev)
  | .check, .check f =>
      if (s.coroutines.coroutine (.inl f)).isCompleted then
        s.goto language w (.release f) s.runtime
      else s.goto language w .returned (s.runtime.setExecutes w none)
  | .release f, .release f' =>
      if f = f' then
        (s.runtime.fiberStack f).bind fun stack =>
          s.goto language w (.delete f) (s.runtime.releaseStack w f stack)
      else none
  | .delete f, .delete f' =>
      if f = f' then
        s.goto language w .returned ((s.runtime.setLife f .destroyed).setExecutes w none)
      else none
  | .leave, .returned =>
      s.goto language w .idle (s.runtime.setTasks (s.runtime.tasks.map (Runtime.settle w)))
  -- A routine or the body of a SimpleCoroutine
  | .segment rest, .routine k =>
      if language.does k (.segment rest) then s.goto language w (.routine rest) s.runtime
      else none
  | .spawn f routine rest, .routine k =>
      if (s.runtime.life f).isBorn = false ∧ language.does k (.spawn routine rest) then
        (s.goto language w (.schedule f rest)
          ((s.runtime.acquireStack w f).setLife f (.built (some w)))).map
            fun s' => s'.construct f routine
      else none
  | .schedule f, .schedule f' rest =>
      if f = f' then
        s.goto language w (.routine rest) ((s.runtime.submit f none).setLife f .scheduled)
      else none
  | .yield rest, .routine k =>
      if language.does k (.yield rest) then
        (s.runtime.currentFiber w).bind fun f =>
          s.goto language w (.suspend rest) (s.runtime.submit f (some w))
      else none
  | .suspend, .suspend rest =>
      s.event language w (.act (.suspend (.routine rest))) s.runtime
  | .finish f, .routine _ =>
      if s.stack w = .coroutine (.inl f) then s.event language w (.act .finish) s.runtime
      else none
  | _, _ => none

def stepNested (language : Language Inner K Exc) (s : State Worker Fiber Inner K Exc)
    (w : Worker) (k : K) : Nested Inner K Exc → Option (State Worker Fiber Inner K Exc)
  | .resume callee rest =>
      s.event language w (.act (.resume (.inr callee) (.routine rest))) s.runtime
  | .suspend rest => s.event language w (.act (.suspend (.routine rest))) s.runtime
  | .throw e =>
      if s.contained language w k (some e) then s.event language w (.act (.throw e)) s.runtime
      else none
  | .finish c =>
      if s.stack w = .coroutine (.inr c) then s.event language w (.act .finish) s.runtime
      else none
  | .resumed _ _ => none

def step (language : Language Inner K Exc) (s : State Worker Fiber Inner K Exc) :
    Label Worker Fiber Inner K Exc → Option (State Worker Fiber Inner K Exc)
  | .internal w =>
      (StackfulCoroutine.step (program language s.payload) s.coroutines (.internal w)).map
        fun coroutines => ⟨coroutines, s.payload, s.runtime⟩
  | .statement w (.resumed f) => s.event language w (.resumed (.inl f) none) s.runtime
  | .statement w statement => (s.code w).bind (stepStatement language s w statement)
  | .nested w (.resumed c thrown) =>
      match (s.coroutines.running w).control with
      | .checking _ (.routine rest) =>
          if s.contained language w rest thrown then
            s.event language w (.resumed (.inr c) thrown) s.runtime
          else none
      | _ => none
  | .nested w nested =>
      match s.code w with
      | some (.routine k) => stepNested language s w k nested
      | _ => none
  | .outsideSpawn f routine =>
      match s.runtime.life f with
      | .unborn =>
          some { s.construct f routine with
            runtime := (s.runtime.allocateStack f).setLife f (.built none) }
      | _ => none
  | .outsideSubmit f =>
      match s.runtime.life f with
      | .built none =>
          some { s with
            runtime := (s.runtime.submit f none).setLife f .scheduled }
      | _ => none

end Machine

/-- SimpleCoroutine::Suspend is called inside a SimpleCoroutine only, and Resume only on one
that is not completed and not in any chain of Resume calls in progress. -/
def Proper (s : State Worker Fiber Inner K Exc) : Label Worker Fiber Inner K Exc → Prop
  | .nested w (.suspend _) => ∃ c, s.stack w = .coroutine (.inr c)
  | .nested _ (.resume c _) => (s.coroutines.coroutine (.inr c)).isCompleted = false ∧
      ∀ w, .inr c ∉ s.coroutines.calls w
  | _ => True

instance [Fintype Worker] [Fintype Inner] [DecidableEq Worker] [DecidableEq Fiber]
    [DecidableEq Inner] (s : State Worker Fiber Inner K Exc)
    (label : Label Worker Fiber Inner K Exc) : Decidable (Proper s label) :=
  match label with
  | .internal _ | .statement _ _ | .outsideSpawn _ _ | .outsideSubmit _ =>
      inferInstanceAs (Decidable True)
  | .nested w (.suspend _) => inferInstanceAs (Decidable (∃ c, s.stack w = .coroutine (.inr c)))
  | .nested _ (.resume c _) =>
      decidable_of_iff ((s.coroutines.coroutine (.inr c)).isCompleted = false ∧
          ∀ w, ∀ d ∈ s.coroutines.calls w, d ≠ .inr c)
        ⟨fun free => ⟨free.1, fun w called => free.2 w _ called rfl⟩,
          fun free => ⟨free.1, fun w _ called same => free.2 w (same ▸ called)⟩⟩
  | .nested _ (.resumed _ _) | .nested _ (.throw _) | .nested _ (.finish _) =>
      inferInstanceAs (Decidable True)

/-- Yield is called where `current` is the coroutine of `current_fiber`. -/
def AtDepthZero (s : State Worker Fiber Inner K Exc) : Label Worker Fiber Inner K Exc → Prop
  | .statement w (.yield _) => s.coroutines.current w = (s.runtime.currentFiber w).map .inl
  | _ => True

instance [DecidableEq Fiber] [DecidableEq Inner] (s : State Worker Fiber Inner K Exc)
    (label : Label Worker Fiber Inner K Exc) : Decidable (AtDepthZero s label) :=
  match label with
  | .statement w statement =>
      match statement with
      | .yield _ => inferInstanceAs
          (Decidable (s.coroutines.current w = (s.runtime.currentFiber w).map .inl))
      | .take _ | .enter | .resume | .resumed _ | .restore | .check | .release _ | .delete _
      | .leave | .segment _ | .spawn _ _ _ | .schedule _ | .suspend | .finish _ =>
          inferInstanceAs (Decidable True)
  | .internal _ | .nested _ _ | .outsideSpawn _ _ | .outsideSubmit _ =>
      inferInstanceAs (Decidable True)

section Executes
variable [DecidableEq Worker] [DecidableEq Fiber] [DecidableEq Inner] [DecidableEq K]
  [DecidableEq Exc]

/-- What each statement asks for and where it leads. -/
inductive Executes (language : Language Inner K Exc) (s : State Worker Fiber Inner K Exc)
    (w : Worker) : Statement Fiber K → Code Fiber K → State Worker Fiber Inner K Exc → Prop where
  | take {f : Fiber} {s' : State Worker Fiber Inner K Exc} (pending : ⟨f, none⟩ ∈ s.runtime.tasks)
      (moved : s.goto language w (.dispatch f)
        ((s.runtime.setTasks (s.runtime.tasks.erase ⟨f, none⟩)).setExecutes w (some f)) = some s') :
      Executes language s w (.take f) .idle s'
  | enter {f : Fiber} {s' : State Worker Fiber Inner K Exc}
      (moved : s.goto language w (.resume f (s.runtime.currentFiber w))
        (s.runtime.setCurrentFiber w (some f)) = some s') :
      Executes language s w .enter (.dispatch f) s'
  | resume {f : Fiber} {prev : Option Fiber} {s' : State Worker Fiber Inner K Exc}
      (moved : s.event language w (.act (.resume (.inl f) (.restore f prev))) s.runtime = some s') :
      Executes language s w .resume (.resume f prev) s'
  | restore {f : Fiber} {prev : Option Fiber} {s' : State Worker Fiber Inner K Exc}
      (moved : s.goto language w (.check f) (s.runtime.setCurrentFiber w prev) = some s') :
      Executes language s w .restore (.restore f prev) s'
  | completed {f : Fiber} {s' : State Worker Fiber Inner K Exc}
      (reports : (s.coroutines.coroutine (.inl f)).isCompleted = true)
      (moved : s.goto language w (.release f) s.runtime = some s') :
      Executes language s w .check (.check f) s'
  | yielded {f : Fiber} {s' : State Worker Fiber Inner K Exc}
      (silent : ¬ (s.coroutines.coroutine (.inl f)).isCompleted = true)
      (moved : s.goto language w .returned (s.runtime.setExecutes w none) = some s') :
      Executes language s w .check (.check f) s'
  | release {f : Fiber} {stack : ℕ} {s' : State Worker Fiber Inner K Exc}
      (owned : s.runtime.fiberStack f = some stack)
      (moved : s.goto language w (.delete f) (s.runtime.releaseStack w f stack) = some s') :
      Executes language s w (.release f) (.release f) s'
  | delete {f : Fiber} {s' : State Worker Fiber Inner K Exc}
      (moved : s.goto language w .returned
        ((s.runtime.setLife f .destroyed).setExecutes w none) = some s') :
      Executes language s w (.delete f) (.delete f) s'
  | leave {s' : State Worker Fiber Inner K Exc}
      (moved : s.goto language w .idle
        (s.runtime.setTasks (s.runtime.tasks.map (Runtime.settle w))) = some s') :
      Executes language s w .leave .returned s'
  | segment {k rest : K} {s' : State Worker Fiber Inner K Exc}
      (may : language.does k (.segment rest) = true)
      (moved : s.goto language w (.routine rest) s.runtime = some s') :
      Executes language s w (.segment rest) (.routine k) s'
  | spawn {f : Fiber} {k routine rest : K} {next : State Worker Fiber Inner K Exc}
      (unborn : s.runtime.life f = .unborn) (may : language.does k (.spawn routine rest) = true)
      (moved : s.goto language w (.schedule f rest)
        ((s.runtime.acquireStack w f).setLife f (.built (some w))) = some next) :
      Executes language s w (.spawn f routine rest) (.routine k) (next.construct f routine)
  | schedule {f : Fiber} {rest : K} {s' : State Worker Fiber Inner K Exc}
      (moved : s.goto language w (.routine rest)
        ((s.runtime.submit f none).setLife f .scheduled) = some s') :
      Executes language s w (.schedule f) (.schedule f rest) s'
  | yield {f : Fiber} {k rest : K} {s' : State Worker Fiber Inner K Exc}
      (may : language.does k (.yield rest) = true) (current : s.runtime.currentFiber w = some f)
      (moved : s.goto language w (.suspend rest) (s.runtime.submit f (some w)) = some s') :
      Executes language s w (.yield rest) (.routine k) s'
  | suspend {rest : K} {s' : State Worker Fiber Inner K Exc}
      (moved : s.event language w (.act (.suspend (.routine rest))) s.runtime = some s') :
      Executes language s w .suspend (.suspend rest) s'
  | finish {f : Fiber} {k : K} {s' : State Worker Fiber Inner K Exc}
      (mine : s.stack w = .coroutine (.inl f))
      (moved : s.event language w (.act .finish) s.runtime = some s') :
      Executes language s w (.finish f) (.routine k) s'

variable {language : Language Inner K Exc} {s s' : State Worker Fiber Inner K Exc} {w : Worker}
  {statement : Statement Fiber K}

theorem stepStatement_executes {k : Code Fiber K}
    (taken : stepStatement language s w statement k = some s') :
    Executes language s w statement k s' := by
  cases statement with
  | take f =>
      cases k with
      | idle =>
          obtain ⟨pending, moved⟩ := Option.ite_none_right_eq_some.mp taken
          exact .take (by simpa using pending) moved
      | _ => cases taken
  | enter =>
      cases k with
      | dispatch f => exact .enter taken
      | _ => cases taken
  | resume =>
      cases k with
      | resume f prev => exact .resume taken
      | _ => cases taken
  | resumed f => cases k <;> cases taken
  | restore =>
      cases k with
      | restore f prev => exact .restore taken
      | _ => cases taken
  | check =>
      cases k with
      | check f =>
          rcases ite_eq_iff.mp taken with ⟨reports, moved⟩ | ⟨silent, moved⟩
          · exact .completed reports moved
          · exact .yielded silent moved
      | _ => cases taken
  | release f =>
      cases k with
      | release f' =>
          obtain ⟨rfl, goes⟩ := Option.ite_none_right_eq_some.mp taken
          obtain ⟨stack, owned, moved⟩ := Option.bind_eq_some_iff.mp goes
          exact .release owned moved
      | _ => cases taken
  | delete f =>
      cases k with
      | delete f' =>
          obtain ⟨rfl, moved⟩ := Option.ite_none_right_eq_some.mp taken
          exact .delete moved
      | _ => cases taken
  | leave =>
      cases k with
      | returned => exact .leave taken
      | _ => cases taken
  | segment rest =>
      cases k with
      | routine k =>
          obtain ⟨may, moved⟩ := Option.ite_none_right_eq_some.mp taken
          exact .segment may moved
      | _ => cases taken
  | spawn f routine rest =>
      cases k with
      | routine k =>
          obtain ⟨⟨fresh, may⟩, made⟩ := Option.ite_none_right_eq_some.mp taken
          obtain ⟨next, moved, rfl⟩ := Option.map_eq_some_iff.mp made
          exact .spawn (Fibers.Life.unborn_of fresh) may moved
      | _ => cases taken
  | schedule f =>
      cases k with
      | schedule f' rest =>
          obtain ⟨rfl, moved⟩ := Option.ite_none_right_eq_some.mp taken
          exact .schedule moved
      | _ => cases taken
  | yield rest =>
      cases k with
      | routine k =>
          obtain ⟨may, goes⟩ := Option.ite_none_right_eq_some.mp taken
          obtain ⟨f, current, moved⟩ := Option.bind_eq_some_iff.mp goes
          exact .yield may current moved
      | _ => cases taken
  | suspend =>
      cases k with
      | suspend rest => exact .suspend taken
      | _ => cases taken
  | finish f =>
      cases k with
      | routine k =>
          obtain ⟨mine, moved⟩ := Option.ite_none_right_eq_some.mp taken
          exact .finish mine moved
      | _ => cases taken

theorem statement_executes (taken : step language s (.statement w statement) = some s') :
    (∃ f, statement = .resumed f ∧
        s.event language w (.resumed (.inl f) none) s.runtime = some s') ∨
      ∃ k, s.code w = some k ∧ Executes language s w statement k s' := by
  cases statement with
  | resumed f => exact .inl ⟨f, rfl, taken⟩
  | _ =>
      obtain ⟨k, here, moved⟩ := Option.bind_eq_some_iff.mp taken
      exact .inr ⟨k, here, stepStatement_executes moved⟩

end Executes

end ConcurrencyCourse.NestedFibers
