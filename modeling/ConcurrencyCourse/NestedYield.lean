import ConcurrencyCourse.NestedSteps

/-!
Yield in nested coroutines. Called by the fiber itself, it gives control back to Dispatch,
and the fiber goes on after it at its next Dispatch; called in a SimpleCoroutine, it gives
control to the body that resumed the SimpleCoroutine.
-/

namespace ConcurrencyCourse.NestedFibers

open Interleaving Asymmetric
open Fibers (Code Task Life Runtime Statement Good Inside Here)

variable {Worker Fiber Inner K Exc : Type*}

/-- The statements of Suspend, and the return of the Resume that Dispatch called. -/
def Returning (w : Worker) (f : Fiber) (label : Label Worker Fiber Inner K Exc) : Prop :=
  label = .statement w .suspend ∨ label = .internal w ∨ label = .statement w (.resumed f)

def Resuming (w : Worker) (label : Label Worker Fiber Inner K Exc) : Prop :=
  label = .statement w .resume ∨ label = .internal w

def Resumes (f : Fiber) (s : State Worker Fiber Inner K Exc) :
    Label Worker Fiber Inner K Exc → Prop
  | .statement w .resume => ∃ prev, s.code w = some (.resume f prev)
  | _ => False

section Property
variable [DecidableEq Worker] [DecidableEq Fiber] [DecidableEq Inner] [DecidableEq K]
  [DecidableEq Exc]

/-- Until the fiber is resumed it stays as it is: on whatever worker its next Dispatch
runs, Resume goes on in this context, inside these Resume calls. The futures are those in
which every later Yield, of any fiber, is called at depth zero as well (`AtDepthZero`):
another one would queue a Dispatch of a fiber that still runs, and a second worker could
resume that fiber wherever it is. So what this Yield does is told apart from what a later
one breaks. -/
def Parked (language : Language Inner K Exc) (f : Fiber)
    (context : StackfulCoroutine.ExecutionContext Worker (Fiber ⊕ Inner) (Code Fiber K) Exc)
    (calls : List (Fiber ⊕ Inner)) (s : State Worker Fiber Inner K Exc) : Prop :=
  ∀ trace s', Reaches (step language) (fun s label => (Proper s label ∧ AtDepthZero s label) ∧
      ¬ Resumes f s label) s trace s' →
    ∀ w prev, s'.code w = some (.resume f prev) →
      FinishesAlone (step language) (Resuming w)
        (fun next => next.coroutines.running w = context ∧ next.coroutines.calls w = calls) s'

/-- Yield suspends the fiber that it is called from. The Suspend that it calls leads back
into Dispatch of that fiber, without the return of any other Resume; the fiber goes on
after the Yield at its next Dispatch, inside all the Resume calls that were in progress.
One Dispatch task of the fiber is pending or running: while a worker runs it, the next one
has to wait for that worker. -/
structure Yields (language : Language Inner K Exc) (s : State Worker Fiber Inner K Exc) :
    Prop where
  returns : ∀ w rest, s.code w = some (.suspend rest) → ∃ f, s.runtime.currentFiber w = some f ∧
    FinishesAlone (step language) (Returning w f)
      (fun next => next.coroutines.running w = ⟨.thread w, .code (.restore f none)⟩ ∧
        Parked language f ⟨s.stack w, .code (.routine rest)⟩ (s.coroutines.calls w) next) s
  once : ∀ f, (s.runtime.tasks.countP fun task => task.fiber = f) ≤ 1 ∧
    ((∀ w, s.runtime.executes w ≠ some f) ∨ s.runtime.Dispatched f)

end Property

section Effects
variable [DecidableEq Fiber]

theorem born_kept {r : Runtime Worker Fiber} {g f : Fiber} {life : Life Worker}
    (now : life ≠ .unborn) (before : r.life f ≠ .unborn) : (r.setLife g life).life f ≠ .unborn := by
  by_cases same : f = g
  · subst same
    simpa [Runtime.setLife] using now
  · simpa [Runtime.setLife, same] using before

variable [DecidableEq Worker] [DecidableEq Inner] [DecidableEq K] [DecidableEq Exc]
variable {language : Language Inner K Exc} {s s' : State Worker Fiber Inner K Exc} {w : Worker}
  {after : Runtime Worker Fiber}

theorem event_effect {e : Event (Fiber ⊕ Inner) (Code Fiber K) Exc}
    (taken : s.event language w e after = some s') :
    s'.runtime = after ∧ s'.coroutines.coroutine = s.coroutines.coroutine ∧
      ∀ w' c, c ∈ s'.coroutines.calls w' → c ∈ s.coroutines.calls w' ∨ e.resumes = some c := by
  obtain ⟨coroutines, moved, rfl⟩ := Option.map_eq_some_iff.mp taken
  have called {calls : List (Fiber ⊕ Inner)} {w' : Worker} {c : Fiber ⊕ Inner}
      (inside : c ∈ Function.update s.coroutines.calls w calls w')
      (known : c ∈ calls → c ∈ s.coroutines.calls w ∨ e.resumes = some c) :
      c ∈ s.coroutines.calls w' ∨ e.resumes = some c := by
    by_cases same : w' = w
    · subst same
      rw [Function.update_self] at inside
      exact known inside
    · rw [Function.update_of_ne same] at inside
      exact .inl inside
  cases e with
  | act action =>
      simp only [StackfulCoroutine.step] at moved
      split at moved
      · simp only [guarded_eq_some] at moved
        obtain ⟨_, rfl⟩ := moved
        refine ⟨rfl, rfl, fun w' c inside => called inside fun known => ?_⟩
        cases action with
        | resume callee rest =>
            rcases List.mem_cons.mp known with rfl | before
            · exact .inr rfl
            · exact .inl before
        | _ => exact .inl known
      · cases moved
  | resumed callee thrown =>
      simp only [StackfulCoroutine.step] at moved
      split at moved
      · simp only [guarded_eq_some] at moved
        obtain ⟨_, rfl⟩ := moved
        exact ⟨rfl, rfl, fun w' c inside => called inside fun known =>
          .inl (List.mem_of_mem_tail known)⟩
      · cases moved

inductive Effect (language : Language Inner K Exc) (s : State Worker Fiber Inner K Exc)
    (w : Worker) (statement : Statement Fiber K) (s' : State Worker Fiber Inner K Exc) : Prop where
  | quiet {e : Event (Fiber ⊕ Inner) (Code Fiber K) Exc} {after : Runtime Worker Fiber}
      (taken : s.event language w e after = some s') (calls : e.resumes = none)
      (born : ∀ f, s.runtime.life f ≠ .unborn → after.life f ≠ .unborn) :
      Effect language s w statement s'
  | resumes {f : Fiber} {prev : Option Fiber} (asks : statement = .resume)
      (here : s.code w = some (.resume f prev))
      (taken : s.event language w (.act (.resume (.inl f) (.restore f prev))) s.runtime = some s') :
      Effect language s w statement s'
  | constructs {e : Event (Fiber ⊕ Inner) (Code Fiber K) Exc} {after : Runtime Worker Fiber}
      {next : State Worker Fiber Inner K Exc} {g : Fiber} {routine : K}
      (unborn : s.runtime.life g = .unborn) (taken : s.event language w e after = some next)
      (calls : e.resumes = none)
      (born : ∀ f, s.runtime.life f ≠ .unborn → after.life f ≠ .unborn)
      (built : s' = next.construct g routine) : Effect language s w statement s'

theorem Executes.effect {statement : Statement Fiber K} {k : Code Fiber K}
    (here : s.code w = some k) (executes : Executes language s w statement k s') :
    Effect language s w statement s' := by
  cases executes with
  | take _ moved => exact .quiet moved rfl fun _ born => born
  | enter moved => exact .quiet moved rfl fun _ born => born
  | resume moved => exact .resumes rfl here moved
  | restore moved => exact .quiet moved rfl fun _ born => born
  | completed _ moved => exact .quiet moved rfl fun _ born => born
  | yielded _ moved => exact .quiet moved rfl fun _ born => born
  | release _ moved => exact .quiet moved rfl fun _ born => born
  | delete moved => exact .quiet moved rfl fun _ born => born_kept (by simp) born
  | leave moved => exact .quiet moved rfl fun _ born => born
  | segment _ moved => exact .quiet moved rfl fun _ born => born
  | @spawn f _ _ _ _ unborn _ moved =>
      have acquired : (s.runtime.acquireStack w f).life = s.runtime.life := by
        unfold Runtime.acquireStack
        split <;> rfl
      exact .constructs unborn moved rfl (fun g born => born_kept (by simp) (acquired ▸ born)) rfl
  | schedule moved => exact .quiet moved rfl fun _ born => born_kept (by simp) born
  | yield _ _ moved => exact .quiet moved rfl fun _ born => born
  | suspend moved => exact .quiet moved rfl fun _ born => born
  | finish _ moved => exact .quiet moved rfl fun _ born => born

/-- What a fiber that nobody resumes keeps. -/
structure Sleeps (f : Fiber) (s s' : State Worker Fiber Inner K Exc) : Prop where
  point : (s'.coroutines.coroutine (.inl f)).coroutineContext =
    (s.coroutines.coroutine (.inl f)).coroutineContext
  idle : ∀ w, .inl f ∉ s'.coroutines.calls w
  born : s'.runtime.life f ≠ .unborn

theorem event_sleeps {f : Fiber} {e : Event (Fiber ⊕ Inner) (Code Fiber K) Exc}
    (moved : s.event language w e after = some s') (idle : ∀ w, .inl f ∉ s.coroutines.calls w)
    (other : e.resumes ≠ some (.inl f)) (alive : after.life f ≠ .unborn) : Sleeps f s s' := by
  obtain ⟨rfl, same, calls⟩ := event_effect moved
  refine ⟨by rw [same], fun w' called => ?_, alive⟩
  rcases calls w' _ called with before | called
  · exact idle w' before
  · exact other called

omit [DecidableEq Worker] [DecidableEq K] [DecidableEq Exc] in
theorem Sleeps.construct {f g : Fiber} (sleeps : Sleeps f s s') (other : f ≠ g) (routine : K) :
    Sleeps f s (s'.construct g routine) where
  point := by
    simpa [State.construct, StackfulCoroutine.State.setCoroutine, other] using sleeps.point
  idle := sleeps.idle
  born := sleeps.born

/-- A call of a SimpleCoroutine is an event that leaves the runtime and resumes no fiber. -/
theorem nested_event {nested : Nested Inner K Exc}
    (taken : step language s (.nested w nested) = some s') :
    ∃ e, s.event language w e s.runtime = some s' ∧ ∀ f, e.resumes ≠ some (.inl f) := by
  cases nested with
  | resumed c thrown =>
      simp only [step] at taken
      split at taken
      · obtain ⟨_, moved⟩ := Option.ite_none_right_eq_some.mp taken
        exact ⟨_, moved, by simp [Event.resumes]⟩
      · cases taken
  | resume c rest =>
      simp only [step] at taken
      split at taken
      · exact ⟨_, taken, by simp [Event.resumes]⟩
      · cases taken
  | suspend rest =>
      simp only [step] at taken
      split at taken
      · exact ⟨_, taken, by simp [Event.resumes]⟩
      · cases taken
  | throw e =>
      simp only [step] at taken
      split at taken
      · obtain ⟨_, moved⟩ := Option.ite_none_right_eq_some.mp taken
        exact ⟨_, moved, by simp [Event.resumes]⟩
      · cases taken
  | finish c =>
      simp only [step] at taken
      split at taken
      · obtain ⟨_, moved⟩ := Option.ite_none_right_eq_some.mp taken
        exact ⟨_, moved, by simp [Event.resumes]⟩
      · cases taken

theorem statement_sleeps {statement : Statement Fiber K} {f : Fiber}
    (taken : step language s (.statement w statement) = some s')
    (unresumed : ¬ Resumes f s (.statement w statement))
    (idle : ∀ w, .inl f ∉ s.coroutines.calls w) (born : s.runtime.life f ≠ .unborn) :
    Sleeps f s s' := by
  rcases statement_executes taken with ⟨g, rfl, moved⟩ | ⟨k, code, executes⟩
  · exact event_sleeps moved idle (by simp [Event.resumes]) born
  · cases executes.effect code with
    | quiet moved calls alive => exact event_sleeps moved idle (by simp [calls]) (alive f born)
    | @resumes g prev asks here moved =>
        subst asks
        refine event_sleeps moved idle (fun called => ?_) born
        cases called
        exact unresumed ⟨prev, here⟩
    | @constructs e after next g routine unborn moved calls alive built =>
        subst built
        exact (event_sleeps moved idle (by simp [calls]) (alive f born)).construct
          (fun same => born (same ▸ unborn)) routine

theorem parked_step {a : Whole Worker Fiber Inner K Exc} {b : Outline Worker Fiber}
    (inv : Invariant language s a b) {label : Label Worker Fiber Inner K Exc}
    (taken : step language s label = some s') {f : Fiber} (unresumed : ¬ Resumes f s label)
    (idle : ∀ w, .inl f ∉ s.coroutines.calls w) (born : s.runtime.life f ≠ .unborn) :
    Sleeps f s s' := by
  cases label with
  | internal w =>
      obtain ⟨coroutines, moved, rfl⟩ := Option.map_eq_some_iff.mp taken
      obtain ⟨calls, saved⟩ := StackfulCoroutine.internal_effect moved
      refine ⟨?_, fun w' => calls ▸ idle w', born⟩
      rcases saved (.inl f) with same | ⟨rest, here, now⟩
      · exact same
      · exact absurd (inv.related.suspending_called here now) (idle w)
  | statement w executed => exact statement_sleeps taken unresumed idle born
  | nested w nested =>
      obtain ⟨e, moved, other⟩ := nested_event taken
      exact event_sleeps moved idle (other f) born
  | outsideSpawn g routine =>
      simp only [step] at taken
      split at taken
      · rename_i unborn
        cases taken
        have other : f ≠ g := fun eq => born (eq ▸ unborn)
        refine ⟨?_, idle, born_kept (by simp) born⟩
        simp [State.construct, StackfulCoroutine.State.setCoroutine, other]
      · cases taken
  | outsideSubmit g =>
      simp only [step] at taken
      split at taken
      · cases taken
        exact ⟨rfl, idle, born_kept (by simp) born⟩
      · cases taken

end Effects

section Paths
variable [DecidableEq Worker] [DecidableEq Fiber] [DecidableEq Inner] [DecidableEq K]
  [DecidableEq Exc]
variable {language : Language Inner K Exc} {s s' : State Worker Fiber Inner K Exc} {w : Worker}
  {a : Whole Worker Fiber Inner K Exc} {b : Outline Worker Fiber}
  {stack : Body Worker (Fiber ⊕ Inner)}

theorem internal_at_code {k : Code Fiber K}
    (here : s.coroutines.running w = ⟨stack, .code k⟩) : step language s (.internal w) = none := by
  simp [step, StackfulCoroutine.step, StackfulCoroutine.internalStep, here]

theorem internal_at_checking {callee : Fiber ⊕ Inner} {k : Code Fiber K}
    (here : s.coroutines.running w = ⟨stack, .checking callee k⟩) :
    step language s (.internal w) = none := by
  simp [step, StackfulCoroutine.step, StackfulCoroutine.internalStep, here]

theorem statement_at_code {statement : Statement Fiber K} (own : ∀ f, statement ≠ .resumed f)
    (elsewhere : s.code w = none) : step language s (.statement w statement) = none := by
  cases statement with
  | resumed f => exact absurd rfl (own f)
  | _ => simp [step, elsewhere]

theorem resumed_at_checking {f : Fiber}
    (elsewhere : ∀ k, (s.coroutines.running w).control ≠ .checking (.inl f) k) :
    step language s (.statement w (.resumed f)) = none := by
  generalize here : s.coroutines.running w = context at elsewhere
  obtain ⟨stack, control⟩ := context
  cases control with
  | checking callee k =>
      have other : callee ≠ .inl f := fun eq => elsewhere k (eq ▸ rfl)
      simp [step, State.event, StackfulCoroutine.step, here, guarded, other.symm]
  | _ => simp [step, State.event, StackfulCoroutine.step, here]

-- The statements of Resume and Suspend one by one, each with what it leads to.

section Statements
variable (language : Language Inner K Exc)

theorem resume_called {f : Fiber} {prev : Option Fiber} (here : s.code w = some (.resume f prev)) :
    ∃ next, step language s (.statement w .resume) = some next ∧
      next.coroutines.running w = ⟨s.stack w, .resuming (.inl f) (.restore f prev)⟩ ∧
      next.coroutines.calls w = .inl f :: s.coroutines.calls w ∧
      next.coroutines.coroutine = s.coroutines.coroutine := by
  refine ⟨⟨(s.coroutines.setCalls w (.inl f :: s.coroutines.calls w)).goto w
    ⟨s.stack w, .resuming (.inl f) (.restore f prev)⟩, s.payload, s.runtime⟩, ?_, ?_, ?_, rfl⟩
  · simp [step, here, stepStatement, State.event, StackfulCoroutine.step, code_eq_some here,
      program, guarded, Event.callsAfter, StackfulCoroutine.perform]
  · simp [StackfulCoroutine.State.goto]
  · simp [StackfulCoroutine.State.goto, StackfulCoroutine.State.setCalls]

theorem current_set {callee : Fiber ⊕ Inner} {rest : Code Fiber K}
    (here : s.coroutines.running w = ⟨stack, .resuming callee rest⟩) :
    ∃ next, step language s (.internal w) = some next ∧
      next.coroutines.running w = ⟨stack, .switching callee (s.coroutines.current w) rest⟩ ∧
      next.coroutines.calls = s.coroutines.calls ∧
      next.coroutines.coroutine = s.coroutines.coroutine := by
  refine ⟨⟨(s.coroutines.setCurrent w (some callee)).goto w
    ⟨stack, .switching callee (s.coroutines.current w) rest⟩, s.payload, s.runtime⟩, ?_, ?_,
    rfl, rfl⟩
  · simp [step, StackfulCoroutine.step, StackfulCoroutine.internalStep, here]
  · simp [StackfulCoroutine.State.goto]

theorem caller_stored {callee : Fiber ⊕ Inner} {last : Option (Fiber ⊕ Inner)}
    {rest : Code Fiber K} (here : s.coroutines.running w = ⟨stack, .switching callee last rest⟩) :
    ∃ next, step language s (.internal w) = some next ∧
      next.coroutines.running w = (s.coroutines.coroutine callee).coroutineContext ∧
      next.coroutines.calls = s.coroutines.calls := by
  refine ⟨⟨(s.coroutines.setCoroutine callee
    { s.coroutines.coroutine callee with
      callerContext := some ⟨stack, .switched callee last rest⟩ }).goto w
        (s.coroutines.coroutine callee).coroutineContext, s.payload, s.runtime⟩, ?_, ?_, rfl⟩
  · simp [step, StackfulCoroutine.step, StackfulCoroutine.internal_switching here]
  · simp [StackfulCoroutine.State.goto]

theorem suspend_called {rest : K} (here : s.code w = some (.suspend rest)) :
    ∃ next, step language s (.statement w .suspend) = some next ∧
      next.coroutines.running w = ⟨s.stack w, .suspending (.routine rest)⟩ ∧
      next.coroutines.current = s.coroutines.current ∧
      next.coroutines.coroutine = s.coroutines.coroutine := by
  refine ⟨⟨(s.coroutines.setCalls w (s.coroutines.calls w)).goto w
    ⟨s.stack w, .suspending (.routine rest)⟩, s.payload, s.runtime⟩, ?_, ?_, rfl, rfl⟩
  · simp [step, here, stepStatement, State.event, StackfulCoroutine.step, code_eq_some here,
      program, guarded, Event.callsAfter, StackfulCoroutine.perform]
  · simp [StackfulCoroutine.State.goto]

theorem point_stored {rest : Code Fiber K} {c : Fiber ⊕ Inner}
    {caller : StackfulCoroutine.ExecutionContext Worker (Fiber ⊕ Inner) (Code Fiber K) Exc}
    (here : s.coroutines.running w = ⟨stack, .suspending rest⟩)
    (now : s.coroutines.current w = some c)
    (saved : (s.coroutines.coroutine c).callerContext = some caller) :
    ∃ next, step language s (.internal w) = some next ∧ next.coroutines.running w = caller ∧
      (next.coroutines.coroutine c).coroutineContext = ⟨stack, .code rest⟩ ∧
      (next.coroutines.coroutine c).exception = (s.coroutines.coroutine c).exception := by
  refine ⟨⟨(s.coroutines.setCoroutine c
    { s.coroutines.coroutine c with
      coroutineContext := ⟨stack, .code rest⟩ }).goto w caller, s.payload, s.runtime⟩,
    ?_, ?_, ?_, ?_⟩
  · simp [step, StackfulCoroutine.step, StackfulCoroutine.internal_suspending here now saved]
  · simp [StackfulCoroutine.State.goto]
  · simp [StackfulCoroutine.State.goto, StackfulCoroutine.State.setCoroutine]
  · simp [StackfulCoroutine.State.goto, StackfulCoroutine.State.setCoroutine]

theorem current_restored {callee : Fiber ⊕ Inner} {last : Option (Fiber ⊕ Inner)}
    {rest : Code Fiber K} (here : s.coroutines.running w = ⟨stack, .switched callee last rest⟩) :
    ∃ next, step language s (.internal w) = some next ∧
      next.coroutines.running w = ⟨stack, .checking callee rest⟩ ∧
      next.coroutines.coroutine = s.coroutines.coroutine := by
  refine ⟨⟨(s.coroutines.setCurrent w last).goto w ⟨stack, .checking callee rest⟩, s.payload,
    s.runtime⟩, ?_, ?_, rfl⟩
  · simp [step, StackfulCoroutine.step, StackfulCoroutine.internalStep, here]
  · simp [StackfulCoroutine.State.goto]

theorem resume_returns {f : Fiber} {rest : Code Fiber K}
    (here : s.coroutines.running w = ⟨stack, .checking (.inl f) rest⟩)
    (quiet : (s.coroutines.coroutine (.inl f)).exception = none) :
    ∃ next, step language s (.statement w (.resumed f)) = some next ∧
      next.coroutines.running w = ⟨stack, .code rest⟩ ∧
      next.coroutines.coroutine = s.coroutines.coroutine := by
  refine ⟨⟨(s.coroutines.setCalls w (s.coroutines.calls w).tail).goto w ⟨stack, .code rest⟩,
    s.payload, s.runtime⟩, ?_, ?_, rfl⟩
  · simp [step, State.event, State.stack, StackfulCoroutine.step, here, quiet, guarded,
      Program.afterResume, StackfulCoroutine.land]
  · simp [StackfulCoroutine.State.goto]

theorem resume_continues {f : Fiber} {prev : Option Fiber}
    (here : s.code w = some (.resume f prev)) :
    FinishesAlone (step language) (Resuming w)
      (fun next => next.coroutines.running w =
          (s.coroutines.coroutine (.inl f)).coroutineContext ∧
        next.coroutines.calls w = .inl f :: s.coroutines.calls w) s := by
  -- A worker inside Resume has the next statement of it to do.
  have only {next : State Worker Fiber Inner K Exc} (inside : next.code w = none)
      (label : Label Worker Fiber Inner K Exc) (own : Resuming w label) :
      label = .internal w ∨ step language next label = none := by
    rcases own with rfl | rfl
    · exact .inr (statement_at_code (by simp) inside)
    · exact .inl rfl
  obtain ⟨s₁, first, running₁, calls₁, fields₁⟩ := resume_called language here
  obtain ⟨s₂, second, running₂, calls₂, fields₂⟩ := current_set language running₁
  obtain ⟨s₃, third, running₃, calls₃⟩ := caller_stored language running₂
  refine .through (.inl rfl) first ?_ (.through (.inr rfl) second (only ?_)
    (.through (.inr rfl) third (only ?_) (.finished ⟨?_, ?_⟩)))
  · rintro label (rfl | rfl)
    · exact .inl rfl
    · exact .inr (internal_at_code (code_eq_some here))
  · simp [State.code, running₁]
  · simp [State.code, running₂]
  · rw [running₃, fields₂, fields₁]
  · rw [calls₃, calls₂, calls₁]

end Statements

theorem parked (inv : Invariant language s a b) {f : Fiber}
    {context : StackfulCoroutine.ExecutionContext Worker (Fiber ⊕ Inner) (Code Fiber K) Exc}
    (saved : (s.coroutines.coroutine (.inl f)).coroutineContext = context)
    (idle : ∀ w, .inl f ∉ s.coroutines.calls w) (born : s.runtime.life f ≠ .unborn) :
    Parked language f context [.inl f] s := by
  intro trace s' reached w prev here
  have still : Sound language s' ∧
      (s'.coroutines.coroutine (.inl f)).coroutineContext = context ∧
      (∀ w, .inl f ∉ s'.coroutines.calls w) ∧ s'.runtime.life f ≠ .unborn := by
    clear here
    induction reached with
    | start => exact ⟨⟨a, b, inv⟩, saved, idle, born⟩
    | next label _ admitted taken ih =>
        obtain ⟨⟨a', b', inv'⟩, saved', idle', born'⟩ := ih
        obtain ⟨⟨proper, own⟩, unresumed⟩ := admitted
        obtain ⟨same, free, lives⟩ := parked_step inv' taken unresumed idle' born'
        exact ⟨inv'.step proper own taken, same.trans saved', free, lives⟩
  obtain ⟨⟨a', b', inv'⟩, saved', _, _⟩ := still
  have calls : s'.coroutines.calls w = [] := by
    obtain ⟨_, _, _, _, _, outlined, _⟩ := inv'.code_here here
    rw [inv'.related.calls]
    exact (inv'.outlines.seen w).alone.mpr outlined
  have continues := resume_continues language here
  rwa [saved', calls] at continues

theorem returns (inv : Invariant language s a b) {rest : K}
    (here : s.code w = some (.suspend rest)) :
    ∃ f, s.runtime.currentFiber w = some f ∧ FinishesAlone (step language) (Returning w f)
      (fun next => next.coroutines.running w = ⟨.thread w, .code (.restore f none)⟩ ∧
        Parked language f ⟨s.stack w, .code (.routine rest)⟩ (s.coroutines.calls w) next) s := by
  obtain ⟨running, going, _, _, _⟩ := inv.code_here here
  obtain ⟨f, prev, dispatches, calls, inside⟩ := inv.flat here
  have held : a.held w = [.inl f] := (held_going_calls going).trans calls
  have now : s.coroutines.current w = some (.inl f) := by
    rw [running.current, held]
    rfl
  obtain ⟨k, waits, caller⟩ := running.chained (.inl f) [] (held ▸ List.suffix_refl _)
  have quiet : (s.coroutines.coroutine (.inl f)).exception = none :=
    (running.alive _ (held ▸ List.mem_singleton_self _)).2
  cases inside.waits.symm.trans dispatches.outlined
  cases dispatches.waits.symm.trans waits
  obtain ⟨s₁, first, running₁, current₁, fields₁⟩ := suspend_called language here
  obtain ⟨s₂, second, running₂, saved₂, quiet₂⟩ := point_stored language
    (c := .inl f) running₁ (current₁ ▸ now) (fields₁ ▸ caller)
  obtain ⟨s₃, third, running₃, fields₃⟩ := current_restored language running₂
  obtain ⟨s₄, fourth, running₄, fields₄⟩ := resume_returns language running₃
    (by rw [fields₃, quiet₂, fields₁, quiet])
  have within {next : State Worker Fiber Inner K Exc} (inside : next.code w = none)
      (unchecked : ∀ k, (next.coroutines.running w).control ≠ .checking (.inl f) k)
      (label : Label Worker Fiber Inner K Exc) (own : Returning w f label) :
      label = .internal w ∨ step language next label = none := by
    rcases own with rfl | rfl | rfl
    · exact .inr (statement_at_code (by simp) inside)
    · exact .inl rfl
    · exact .inr (resumed_at_checking unchecked)
  refine ⟨f, inside.current, .through (.inl rfl) first ?_ (.through (.inr (.inl rfl)) second
    (within ?_ ?_) (.through (.inr (.inl rfl)) third (within ?_ ?_)
      (.through (.inr (.inr rfl)) fourth ?_ (.finished ⟨running₄, ?_⟩))))⟩
  · rintro label (rfl | rfl | rfl)
    · exact .inl rfl
    · exact .inr (internal_at_code (code_eq_some here))
    · exact .inr (resumed_at_checking (by simp [code_eq_some here]))
  · simp [State.code, running₁]
  · simp [running₁]
  · simp [State.code, running₂]
  · simp [running₂]
  · rintro label (rfl | rfl | rfl)
    · exact .inr (statement_at_code (by simp) (by simp [State.code, running₃]))
    · exact .inr (internal_at_checking running₃)
    · exact .inl rfl
  · obtain ⟨_, _, inv₁⟩ := inv.step (by trivial) (by trivial) first
    obtain ⟨_, _, inv₂⟩ := inv₁.step (by trivial) (by trivial) second
    obtain ⟨_, _, inv₃⟩ := inv₂.step (by trivial) (by trivial) third
    obtain ⟨a₄, b₄, inv₄⟩ := inv₃.step (by trivial) (by trivial) fourth
    have code₄ : s₄.code w = some (.restore f none) := by simp [State.code, running₄]
    obtain ⟨_, _, _, _, _, outlined, _, executes, _⟩ := inv₄.code_here code₄
    have idle (w' : Worker) : .inl f ∉ s₄.coroutines.calls w' := by
      rw [inv₄.related.calls, (inv₄.outlines.seen w').called]
      exact inv₄.good.outside executes outlined w'
    have born : s₄.runtime.life f ≠ .unborn := by
      rw [inv₄.good.executing w f executes]
      simp
    have saved : (s₄.coroutines.coroutine (.inl f)).coroutineContext =
        ⟨s.stack w, .code (.routine rest)⟩ := by
      rw [fields₄, fields₃, saved₂]
    rw [inv.related.calls, calls]
    exact parked inv₄ saved idle born

/-- Yield in a SimpleCoroutine: the Suspend that it calls leads into the Resume of that
SimpleCoroutine, which then has to return. -/
theorem never_returns {rest : K} {c : Inner} (here : s.code w = some (.suspend rest))
    (now : s.coroutines.current w = some (.inr c)) {last : Option (Fiber ⊕ Inner)}
    {k : Code Fiber K} (caller : (s.coroutines.coroutine (.inr c)).callerContext =
      some ⟨stack, .switched (.inr c) last k⟩) (f : Fiber)
    {done : State Worker Fiber Inner K Exc → Prop}
    (back : ∀ next, done next →
      next.coroutines.running w = ⟨.thread w, .code (.restore f none)⟩) :
    ¬ FinishesAlone (step language) (Returning w f) done s := by
  intro finishes
  obtain ⟨s₁, first, running₁, current₁, fields₁⟩ := suspend_called language here
  obtain ⟨s₂, second, running₂, _, _⟩ := point_stored language
    (c := .inr c) running₁ (current₁ ▸ now) (fields₁ ▸ caller)
  obtain ⟨s₃, third, running₃, _⟩ := current_restored language running₂
  have away {next : State Worker Fiber Inner K Exc}
      (elsewhere : next.code w ≠ some (.restore f none)) : ¬ done next := fun ended =>
    elsewhere (by simp [State.code, back next ended])
  have last := ((finishes.next (away (by simp [here])) (.inl rfl) first).next
    (away (by simp [State.code, running₁])) (.inr (.inl rfl)) second).next
    (away (by simp [State.code, running₂])) (.inr (.inl rfl)) third
  cases last with
  | finished ended => exact away (by simp [State.code, running₃]) ended
  | goes able _ =>
      obtain ⟨label, own, moves⟩ := able
      have stuck : step language s₃ label = none := by
        rcases own with rfl | rfl | rfl
        · exact statement_at_code (by simp) (by simp [State.code, running₃])
        · exact internal_at_checking running₃
        · exact resumed_at_checking (by simp [running₃])
      simp [stuck] at moves

theorem goto_leads {k k' : Code Fiber K} {after : Runtime Worker Fiber} (here : s.code w = some k)
    (taken : s.goto language w k' after = some s') : s'.code w = some k' ∧
      s'.coroutines.current = s.coroutines.current ∧
      s'.coroutines.coroutine = s.coroutines.coroutine := by
  obtain ⟨coroutines, stepped, rfl⟩ := Option.map_eq_some_iff.mp taken
  simp only [StackfulCoroutine.step, code_eq_some here, guarded_eq_some] at stepped
  obtain ⟨_, rfl⟩ := stepped
  refine ⟨?_, rfl, rfl⟩
  simp [State.code, StackfulCoroutine.State.goto, StackfulCoroutine.perform]

theorem breaks (inv : Invariant language s a b) {label : Label Worker Fiber Inner K Exc}
    (taken : step language s label = some s') (deep : ¬ AtDepthZero s label) :
    ¬ Yields language s' := by
  intro yields
  cases label with
  | statement w executed =>
      cases executed with
      | yield rest =>
          obtain ⟨k, here, taken⟩ := Option.bind_eq_some_iff.mp taken
          cases k with
          | routine k =>
              obtain ⟨running, _, _, _, _⟩ := inv.code_here here
              obtain ⟨f, prev, inners, busy, current⟩ := inv.busy here
              obtain ⟨_, taken⟩ := Option.ite_none_right_eq_some.mp taken
              obtain ⟨f', _, moved⟩ := Option.bind_eq_some_iff.mp taken
              obtain ⟨code, still, fields⟩ := goto_leads here moved
              have now : s.coroutines.current w = (chain f inners).head? := by
                rw [running.current, busy.held]
              cases inners with
              | nil => exact deep (by simp [AtDepthZero, now, current, chain])
              | cons c inners =>
                  obtain ⟨_, _, caller⟩ := running.chained (.inr c) (chain f inners)
                    (busy.held ▸ List.suffix_refl _)
                  obtain ⟨g, _, finishes⟩ := yields.returns w rest code
                  exact never_returns code (still ▸ now) (fields ▸ caller) g
                    (fun _ ended => ended.1) finishes
          | _ => cases taken
      | _ => exact deep trivial
  | _ => exact deep trivial

theorem yields (inv : Invariant language s a b) : Yields language s where
  returns _ _ here := returns inv here
  once f := by
    refine ⟨?_, ?_⟩
    · have fibers : s.runtime.tasks.countP (fun task => task.fiber = f) =
          (s.runtime.tasks.map Task.fiber).count f := by
        simp [List.count, List.countP_map, Function.comp_def, beq_eq_decide]
      rw [fibers]
      exact List.nodup_iff_count_le_one.mp inv.good.nodup f
    · by_cases idle : ∀ w, s.runtime.executes w ≠ some f
      · exact .inl idle
      · obtain ⟨w, executes⟩ := not_forall_not.mp idle
        exact .inr (inv.good.dispatched executes)

/-- Yield suspends the fiber that it is called from, throughout a run, exactly if it is
called by the fibers themselves in every step of the run. -/
theorem yields_iff_at_depth_zero {payload : Fiber → K}
    {trace : List (Label Worker Fiber Inner K Exc)} :
    Reaches (step language) (fun s label => Proper s label ∧ AtDepthZero s label)
        (init language payload) trace s ↔
      Reaches (step language) Proper (init language payload) trace s ∧
        ∀ early s', early <+: trace →
          Reaches (step language) Proper (init language payload) early s' →
          Yields language s' := by
  refine reaches_exactly_within (fun trace s reached => ?_)
    fun trace s label after reached taken deep => ?_
  · obtain ⟨_, _, inv⟩ := reaches_sound reached
    exact yields inv
  · obtain ⟨_, _, inv⟩ := reaches_sound reached
    exact breaks inv taken deep

end Paths

/-- A fiber that resumes a SimpleCoroutine twice and yields in between; the SimpleCoroutine
suspends, or yields. -/
def resumesTwice : Language Unit ℕ Empty where
  does k action := decide ((k, action) ∈
    [(0, .resume () 1), (1, .yield 2), (2, .resume () 3), (3, .finish), (10, .suspend 11),
      (10, .yield 11), (11, .finish)])
  handler _ _ := none
  body _ := 10

/-- The fiber yields with the SimpleCoroutine suspended, and goes on on another worker. -/
theorem yields_iff_at_depth_zero_migrated :
    ∃ (trace : List (Label Bool Unit Unit ℕ Empty)) (s : State Bool Unit Unit ℕ Empty),
      run (restricted (step resumesTwice) fun s label => Proper s label ∧ AtDepthZero s label)
        (init resumesTwice fun _ => 0) trace = some s ∧
      s.code true = some (.routine 11) ∧ Yields resumesTwice s := by
  have ran : run (restricted (step resumesTwice) fun s label => Proper s label ∧
      AtDepthZero s label) (init resumesTwice fun _ => 0)
      [.outsideSpawn () 0, .outsideSubmit (), .statement false (.take ()), .statement false .enter,
        .statement false .resume, .internal false, .internal false, .internal false,
        .nested false (.resume () 1), .internal false, .internal false, .internal false,
        .nested false (.suspend 11), .internal false, .internal false,
        .nested false (.resumed () none), .statement false (.yield 2),
        .statement false .suspend, .internal false, .internal false,
        .statement false (.resumed ()), .statement false .restore, .statement false .check,
        .statement false .leave, .statement true (.take ()), .statement true .enter,
        .statement true .resume, .internal true, .internal true, .nested true (.resume () 3),
        .internal true, .internal true] = some _ := rfl
  obtain ⟨reached, throughout⟩ := yields_iff_at_depth_zero.mp (run_reaches ran)
  exact ⟨_, _, ran, rfl, throughout _ _ (List.prefix_refl _) reached⟩

/-- The SimpleCoroutine yields: Resume returns into the routine while the next Dispatch is
pending, and after the Yield of the routine two workers dispatch the fiber at once. -/
theorem yield_in_simple_coroutine :
    ∃ (early late : List (Label Bool Unit Unit ℕ Empty)) (s s' : State Bool Unit Unit ℕ Empty),
      Reaches (step resumesTwice) Proper (init resumesTwice fun _ => 0) early s ∧
      Reaches (step resumesTwice) Proper (init resumesTwice fun _ => 0) (early ++ late) s' ∧
      s.coroutines.running false = ⟨.coroutine (.inl ()), .code (.routine 1)⟩ ∧
      (s.coroutines.coroutine (.inr ())).isCompleted = false ∧
      s.runtime.tasks = [⟨(), some false⟩] ∧ (∀ w, s'.runtime.executes w = some ()) ∧
      ¬ Yields resumesTwice s' := by
  have first : run (restricted (step resumesTwice) Proper) (init resumesTwice fun _ => 0)
      [.outsideSpawn () 0, .outsideSubmit (), .statement false (.take ()), .statement false .enter,
        .statement false .resume, .internal false, .internal false, .internal false,
        .nested false (.resume () 1), .internal false, .internal false, .internal false,
        .statement false (.yield 11), .statement false .suspend, .internal false, .internal false,
        .nested false (.resumed () none)] = some _ := rfl
  have second : run (restricted (step resumesTwice) Proper) (init resumesTwice fun _ => 0)
      ([.outsideSpawn () 0, .outsideSubmit (), .statement false (.take ()),
        .statement false .enter, .statement false .resume, .internal false, .internal false,
        .internal false, .nested false (.resume () 1), .internal false, .internal false,
        .internal false, .statement false (.yield 11), .statement false .suspend,
        .internal false, .internal false, .nested false (.resumed () none)] ++
      [.statement false (.yield 2), .statement false .suspend, .internal false, .internal false,
        .statement false (.resumed ()), .statement false .restore, .statement false .check,
        .statement false .leave, .statement false (.take ()), .statement true (.take ())]) =
        some _ := rfl
  refine ⟨_, _, _, _, run_reaches first, run_reaches second, rfl, rfl, rfl, by decide, ?_⟩
  intro yields
  rcases (yields.once ()).2 with idle | ⟨w, holder, _⟩
  · exact idle true rfl
  · cases ((holder true).mp rfl).trans ((holder false).mp rfl).symm

end ConcurrencyCourse.NestedFibers
