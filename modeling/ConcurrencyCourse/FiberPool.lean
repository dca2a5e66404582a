import ConcurrencyCourse.FiberProcesses
import Mathlib.Data.Finset.Card
import Mathlib.Data.Fintype.Basic

/-!
The pool of mtf/thread_pool, with the fibers as its tasks. Each worker thread is inside
io_context::run, which returns once the outstanding work count has reached 0: the tasks
that are pending, those that are running and the work guard, which Join resets. Join then
joins the worker threads one by one.
-/

namespace ConcurrencyCourse.FiberPool

open Interleaving Fibers

variable {Worker Fiber K : Type*}

/-- Where the owner of the pool is. At `joining []` only `joined_` is left to set. -/
inductive Owner (Worker : Type*) where
  | outside
  | resetting
  | joining (rest : List Worker)

structure State (Worker Fiber K : Type*) where
  fibers : Fibers.State Worker Fiber K
  workGuard : Bool
  stopped : Bool
  returned : Worker → Bool
  joined : Bool
  owner : Owner Worker

inductive Label (Worker Fiber K : Type*) where
  | fibers (label : Fibers.Label Worker Fiber K)
  -- io_context
  | stop
  | runReturns (w : Worker)
  -- Join
  | join
  | reset
  | joinWorker
  | markJoined

namespace Label

def fiber? : Label Worker Fiber K → Option (Fibers.Label Worker Fiber K)
  | fibers label => some label
  | _ => none

def worker? : Label Worker Fiber K → Option Worker
  | fibers (.internal w) | fibers (.statement w _) => some w
  | _ => none

def takes : Label Worker Fiber K → Bool
  | fibers (.statement _ (.take _)) => true
  | _ => false

end Label

def fiberLabels (trace : List (Label Worker Fiber K)) : List (Fibers.Label Worker Fiber K) :=
  trace.filterMap Label.fiber?

section Machine
variable [DecidableEq Worker] [DecidableEq Fiber] [DecidableEq K]

def init (does : K → Action K → Bool) (payload : Fiber → K) : State Worker Fiber K where
  fibers := Fibers.init does payload
  workGuard := true
  stopped := false
  returned _ := false
  joined := false
  owner := .outside

namespace State
variable (s : State Worker Fiber K)

def isIdle (w : Worker) : Bool :=
  match s.fibers.code w with
  | some .idle => true
  | _ => false

def outstanding [Fintype Worker] : ℕ :=
  s.workGuard.toNat + s.fibers.runtime.tasks.length +
    (Finset.univ.filter fun w => s.isIdle w = false).card

/-- A worker does nothing once its run has returned, and a stopped context hands out no
task. -/
def admits (label : Fibers.Label Worker Fiber K) : Prop :=
  (∀ w ∈ (Label.fibers label).worker?, s.returned w = false) ∧
    ((Label.fibers label).takes = true → s.stopped = false)

instance (label : Fibers.Label Worker Fiber K) : Decidable (s.admits label) :=
  inferInstanceAs (Decidable (_ ∧ _))

end State

def step [Fintype Worker] (does : K → Action K → Bool) (workers : List Worker)
    (s : State Worker Fiber K) : Label Worker Fiber K → Option (State Worker Fiber K)
  | .fibers label =>
      if s.admits label then
        (Fibers.step does s.fibers label).map fun fibers => { s with fibers := fibers }
      else none
  | .stop => guarded (s.stopped = false ∧ s.outstanding = 0) { s with stopped := true }
  | .runReturns w =>
      guarded (s.stopped = true ∧ s.isIdle w = true ∧ s.returned w = false)
        { s with returned := Function.update s.returned w true }
  | .join =>
      match s.owner with
      | .outside => if s.joined then some s else some { s with owner := .resetting }
      | _ => none
  | .reset =>
      match s.owner with
      | .resetting =>
          some
            { s with
              workGuard := false
              owner := .joining workers }
      | _ => none
  | .joinWorker =>
      match s.owner with
      | .joining (w :: rest) =>
          guarded (s.returned w = true) { s with owner := .joining rest }
      | _ => none
  | .markJoined =>
      match s.owner with
      | .joining [] =>
          some
            { s with
              joined := true
              owner := .outside }
      | _ => none

end Machine

/-! What the runtime owes: a fiber under construction to the worker inside Spawn, and the
end of a fiber without a stack to the worker inside Destroy. -/

section Elsewhere
variable {Thread Co Code Exc : Type*} [DecidableEq Thread] [DecidableEq Co]
  {program : Asymmetric.Program Thread Co Code Exc}
  {s s' : StackfulCoroutine.State Thread Co Code Exc} {t t' : Thread}

theorem internal_elsewhere (taken : StackfulCoroutine.internalStep program s t = some s')
    (other : t' ≠ t) : s'.running t' = s.running t' := by
  have goes {c : StackfulCoroutine.ExecutionContext Thread Co Code Exc} :
      Function.update s.running t c t' = s.running t' := Function.update_of_ne other ..
  generalize here : s.running t = context at taken
  obtain ⟨stack, control⟩ := context
  cases control with
  | resuming | switching | switched =>
      simp only [StackfulCoroutine.internalStep, here] at taken
      cases taken
      exact goes
  | suspending rest =>
      simp only [StackfulCoroutine.internalStep, here] at taken
      obtain ⟨_, _, moved⟩ := Option.bind_eq_some_iff.mp taken
      obtain ⟨_, _, rfl⟩ := Option.map_eq_some_iff.mp moved
      exact goes
  | starting | caught | completing =>
      simp only [StackfulCoroutine.internalStep, here] at taken
      obtain ⟨_, _, rfl⟩ := Option.map_eq_some_iff.mp taken
      exact goes
  | exiting =>
      simp only [StackfulCoroutine.internalStep, here] at taken
      obtain ⟨_, _, moved⟩ := Option.bind_eq_some_iff.mp taken
      obtain ⟨_, _, rfl⟩ := Option.map_eq_some_iff.mp moved
      exact goes
  | _ => simp [StackfulCoroutine.internalStep, here] at taken

theorem event_elsewhere [DecidableEq Exc] {body : Asymmetric.Body Thread Co}
    {e : Asymmetric.Event Co Code Exc}
    (taken : StackfulCoroutine.step program s (.event ⟨t, body, e⟩) = some s') (other : t' ≠ t) :
    s'.running t' = s.running t' := by
  cases e with
  | act action =>
      simp only [StackfulCoroutine.step] at taken
      split at taken
      · obtain ⟨_, rfl⟩ := guarded_eq_some.mp taken
        exact Function.update_of_ne other ..
      · cases taken
  | resumed callee thrown =>
      simp only [StackfulCoroutine.step] at taken
      split at taken
      · obtain ⟨_, rfl⟩ := guarded_eq_some.mp taken
        exact Function.update_of_ne other ..
      · cases taken

end Elsewhere

section Debts
variable [DecidableEq Worker] [DecidableEq Fiber] [DecidableEq K]

structure Owes (s : Fibers.State Worker Fiber K) : Prop where
  built : ∀ f w, s.runtime.life f = .built (some w) → ∃ rest, s.code w = some (.schedule f rest)
  stack : ∀ f, s.runtime.fiberStack f = none →
    s.runtime.life f = .unborn ∨ s.runtime.life f = .destroyed ∨ ∃ w, s.code w = some (.delete f)

/-- Whoever owes something to a fiber that does not change still does. -/
structure Spares (s s' : Fibers.State Worker Fiber K) (changes : Fiber → Prop) : Prop where
  life : ∀ f, ¬changes f → s'.runtime.life f = s.runtime.life f
  stack : ∀ f, ¬changes f → s'.runtime.fiberStack f = s.runtime.fiberStack f
  schedule : ∀ w f rest, ¬changes f → s.code w = some (.schedule f rest) →
    s'.code w = some (.schedule f rest)
  delete : ∀ w f, ¬changes f → s.code w = some (.delete f) → s'.code w = some (.delete f)

omit [DecidableEq Worker] [DecidableEq Fiber] [DecidableEq K] in
theorem Owes.moved {s s' : Fibers.State Worker Fiber K} (changes : Fiber → Prop) (owes : Owes s)
    (spares : Spares s s' changes)
    (built : ∀ f w, changes f → s'.runtime.life f = .built (some w) →
      ∃ rest, s'.code w = some (.schedule f rest))
    (stack : ∀ f, changes f → s'.runtime.fiberStack f = none → s'.runtime.life f = .unborn ∨
      s'.runtime.life f = .destroyed ∨ ∃ w, s'.code w = some (.delete f)) : Owes s' where
  built f w now := by
    by_cases changed : changes f
    · exact built f w changed now
    · rw [spares.life f changed] at now
      obtain ⟨rest, here⟩ := owes.built f w now
      exact ⟨rest, spares.schedule w f rest changed here⟩
  stack f empty := by
    by_cases changed : changes f
    · exact stack f changed empty
    · rw [spares.stack f changed] at empty
      rw [spares.life f changed]
      rcases owes.stack f empty with unborn | destroyed | ⟨w, here⟩
      · exact .inl unborn
      · exact .inr (.inl destroyed)
      · exact .inr (.inr ⟨w, spares.delete w f changed here⟩)

variable {does : K → Action K → Bool} {s s' : Fibers.State Worker Fiber K} {w : Worker} {f : Fiber}
  {after : Runtime Worker Fiber} {a : Abstract Worker Fiber K}

theorem event_code {e : Asymmetric.Event Fiber (Code Fiber K) Empty}
    (taken : s.event does w e after = some s') :
    s'.runtime = after ∧ ∀ w', w' ≠ w → s'.code w' = s.code w' := by
  refine ⟨event_runtime taken, fun w' other => ?_⟩
  obtain ⟨coroutines, moved, rfl⟩ := Option.map_eq_some_iff.mp taken
  rw [Fibers.State.code, Fibers.State.code, event_elsewhere moved other]

theorem goto_code {k : Code Fiber K} (taken : s.goto does w k after = some s') :
    s'.code w = some k := by
  obtain ⟨coroutines, moved, rfl⟩ := Option.map_eq_some_iff.mp taken
  simp only [StackfulCoroutine.step] at moved
  split at moved
  · obtain ⟨_, rfl⟩ := guarded_eq_some.mp moved
    simp [Fibers.State.code, StackfulCoroutine.State.goto, StackfulCoroutine.perform]
  · cases moved

omit [DecidableEq Worker] [DecidableEq Fiber] [DecidableEq K] in
theorem Spares.of_code (changes : Fiber → Prop) {k : Option (Code Fiber K)} (here : s.code w = k)
    (others : ∀ w', w' ≠ w → s'.code w' = s.code w')
    (life : ∀ f, ¬changes f → s'.runtime.life f = s.runtime.life f)
    (stack : ∀ f, ¬changes f → s'.runtime.fiberStack f = s.runtime.fiberStack f)
    (schedules : ∀ f rest, k = some (.schedule f rest) → changes f)
    (deletes : ∀ f, k = some (.delete f) → changes f) : Spares s s' changes where
  life := life
  stack := stack
  schedule w' f rest other at_w' := by
    have elsewhere : w' ≠ w := by
      rintro rfl
      exact other (schedules f rest (here.symm.trans at_w'))
    exact (others w' elsewhere).trans at_w'
  delete w' f other at_w' := by
    have elsewhere : w' ≠ w := by
      rintro rfl
      exact other (deletes f (here.symm.trans at_w'))
    exact (others w' elsewhere).trans at_w'

omit [DecidableEq Worker] [DecidableEq Fiber] [DecidableEq K] in
theorem Owes.quiet (owes : Owes s) {k : Option (Code Fiber K)} (here : s.code w = k)
    (others : ∀ w', w' ≠ w → s'.code w' = s.code w')
    (life : s'.runtime.life = s.runtime.life)
    (stack : s'.runtime.fiberStack = s.runtime.fiberStack)
    (unscheduled : ∀ f rest, k ≠ some (.schedule f rest)) (undeleted : ∀ f, k ≠ some (.delete f)) :
    Owes s' :=
  owes.moved (fun _ => False) (.of_code _ here others (fun f _ => congrFun life f)
    (fun f _ => congrFun stack f) unscheduled undeleted) (fun _ _ none => none.elim)
    fun _ none => none.elim

theorem Owes.event (owes : Owes s) {k : Option (Code Fiber K)} (here : s.code w = k)
    {e : Asymmetric.Event Fiber (Code Fiber K) Empty} (taken : s.event does w e after = some s')
    (life : after.life = s.runtime.life) (stack : after.fiberStack = s.runtime.fiberStack)
    (unscheduled : ∀ f rest, k ≠ some (.schedule f rest)) (undeleted : ∀ f, k ≠ some (.delete f)) :
    Owes s' := by
  obtain ⟨effect, others⟩ := event_code taken
  exact owes.quiet here others (effect ▸ life) (effect ▸ stack) unscheduled undeleted

omit [DecidableEq Worker] in
theorem Owes.built_stack (owes : Owes s) (inv : Invariant does s a) {builder : Option Worker}
    (built : s.runtime.life f = .built builder) : s.runtime.fiberStack f ≠ none := by
  intro empty
  rcases owes.stack f empty with unborn | destroyed | ⟨w, here⟩
  · cases built.symm.trans unborn
  · cases built.symm.trans destroyed
  · obtain ⟨_, _, _, _, _, executes, _⟩ := inv.code_here here
    cases built.symm.trans (inv.good.executing w f executes)

theorem Owes.release (owes : Owes s) {stack : ℕ} (here : s.code w = some (.release f))
    (taken : s.goto does w (.delete f) (s.runtime.releaseStack w f stack) = some s') : Owes s' := by
  obtain ⟨effect, others⟩ := event_code taken
  refine owes.moved (· = f) (.of_code _ here others (fun g _ => ?_) (fun g other => ?_)
    (by simp) (by simp)) ?_ ?_
  · rw [effect]
    rfl
  · rw [effect]
    exact Function.update_of_ne other ..
  · rintro g w' rfl built
    rw [effect] at built
    obtain ⟨rest, there⟩ := owes.built g w' built
    have elsewhere : w' ≠ w := by
      rintro rfl
      cases here.symm.trans there
    exact ⟨rest, (others w' elsewhere).trans there⟩
  · rintro g rfl _
    exact .inr (.inr ⟨w, goto_code taken⟩)

theorem Owes.delete (owes : Owes s) (here : s.code w = some (.delete f))
    (taken : s.goto does w .returned ((s.runtime.setLife f .destroyed).setExecutes w none) =
      some s') : Owes s' := by
  obtain ⟨effect, others⟩ := event_code taken
  have gone : s'.runtime.life f = .destroyed := by
    rw [effect]
    exact Function.update_self ..
  refine owes.moved (· = f) (.of_code _ here others (fun g other => ?_) (fun g _ => ?_)
    (by simp) (by simp [eq_comm])) ?_ ?_
  · rw [effect]
    exact Function.update_of_ne other ..
  · rw [effect]
    rfl
  · rintro g w' rfl built
    cases gone.symm.trans built
  · rintro g rfl _
    exact .inr (.inl gone)

theorem Owes.schedule (owes : Owes s) (inv : Invariant does s a) {rest : K}
    (here : s.code w = some (.schedule f rest))
    (taken : s.goto does w (.routine rest) ((s.runtime.submit f none).setLife f .scheduled) =
      some s') : Owes s' := by
  obtain ⟨effect, others⟩ := event_code taken
  obtain ⟨_, _, _, _, _, _, built⟩ := inv.code_here here
  refine owes.moved (· = f) (.of_code _ here others (fun g other => ?_) (fun g _ => ?_)
    (by simp [eq_comm]) (by simp)) ?_ ?_
  · rw [effect]
    exact Function.update_of_ne other ..
  · rw [effect]
    rfl
  · rintro g w' rfl now
    rw [effect] at now
    simp [Runtime.setLife] at now
  · rintro g rfl empty
    rw [effect] at empty
    exact absurd empty (owes.built_stack inv built)

omit [DecidableEq Worker] [DecidableEq K] in
theorem Owes.born (owes : Owes s) (s' : Fibers.State Worker Fiber K) {builder : Option Worker}
    (born : Born s.runtime s'.runtime f builder) (spares : Spares s s' (· = f))
    (owed : ∀ w, builder = some w → ∃ rest, s'.code w = some (.schedule f rest)) : Owes s' := by
  refine owes.moved _ spares ?_ ?_
  · rintro g w' rfl built
    rw [born.life, Function.update_self] at built
    exact owed w' (Life.built.inj built)
  · rintro g rfl empty
    have owned := born.owned
    rw [empty] at owned
    cases owned

theorem Owes.spawn (owes : Owes s) {k routine rest : K} {next : Fibers.State Worker Fiber K}
    (here : s.code w = some (.routine k))
    (moved : s.goto does w (.schedule f rest)
      ((s.runtime.acquireStack w f).setLife f (.built (some w))) = some next) :
    Owes (next.construct f routine) := by
  have born := born_acquired s.runtime w f (some w)
  obtain ⟨effect, others⟩ := event_code moved
  rw [← effect] at born
  refine owes.born (next.construct f routine) born (.of_code _ here others (fun g other => ?_)
    born.stack (by simp) (by simp)) fun w' same => ?_
  · exact (congrFun born.life g).trans (Function.update_of_ne other ..)
  · cases same
    exact ⟨rest, (goto_code moved : next.code w = _)⟩

theorem Owes.executes (owes : Owes s) (inv : Invariant does s a) {statement : Statement Fiber K}
    {k : Code Fiber K} (here : s.code w = some k) (executes : Executes does s w statement k s') :
    Owes s' := by
  cases executes with
  | take _ moved => exact owes.event here moved rfl rfl (by simp) (by simp)
  | enter moved => exact owes.event here moved rfl rfl (by simp) (by simp)
  | resume moved => exact owes.event here moved rfl rfl (by simp) (by simp)
  | restore moved => exact owes.event here moved rfl rfl (by simp) (by simp)
  | completed _ moved => exact owes.event here moved rfl rfl (by simp) (by simp)
  | yielded _ moved => exact owes.event here moved rfl rfl (by simp) (by simp)
  | release _ moved => exact owes.release here moved
  | delete moved => exact owes.delete here moved
  | leave moved => exact owes.event here moved rfl rfl (by simp) (by simp)
  | segment _ moved => exact owes.event here moved rfl rfl (by simp) (by simp)
  | spawn _ _ moved => exact owes.spawn here moved
  | schedule moved => exact owes.schedule inv here moved
  | yield _ _ moved => exact owes.event here moved rfl rfl (by simp) (by simp)
  | suspend moved => exact owes.event here moved rfl rfl (by simp) (by simp)
  | finish _ moved => exact owes.event here moved rfl rfl (by simp) (by simp)

omit [DecidableEq Worker] [DecidableEq Fiber] [DecidableEq K] in
theorem code_none {context : StackfulCoroutine.ExecutionContext Worker Fiber (Code Fiber K) Empty}
    (running : s.coroutines.running w = context) (other : ∀ k, context.control ≠ .code k) :
    s.code w = none := by
  unfold Fibers.State.code
  rw [running]
  cases control : context.control with
  | code k => exact absurd control (other k)
  | _ => rfl

theorem Owes.step (owes : Owes s) (inv : Invariant does s a) {label : Fibers.Label Worker Fiber K}
    (taken : Fibers.step does s label = some s') : Owes s' := by
  cases label with
  | internal w =>
      obtain ⟨coroutines, moved, rfl⟩ := Option.map_eq_some_iff.mp taken
      have hidden : s.code w = none := by
        refine code_none rfl fun k here => ?_
        have quiet : StackfulCoroutine.pending (s.coroutines.running w).control = 0 := by
          rw [here]
          rfl
        cases (StackfulCoroutine.internal_pending quiet).symm.trans moved
      refine owes.quiet hidden (fun w' other => ?_) rfl rfl (by simp) (by simp)
      rw [Fibers.State.code, Fibers.State.code, internal_elsewhere moved other]
  | statement w executed =>
      rcases statement_executes taken with ⟨f, rfl, moved⟩ | ⟨k, here, executes⟩
      · have hidden : s.code w = none := by
          refine code_none rfl fun k here => ?_
          obtain ⟨coroutines, resumed, rfl⟩ := Option.map_eq_some_iff.mp moved
          simp [StackfulCoroutine.step, here] at resumed
        exact owes.event hidden moved rfl rfl (by simp) (by simp)
      · exact owes.executes inv here executes
  | outsideSpawn f routine =>
      simp only [Fibers.step] at taken
      split at taken
      · cases taken
        have born := born_allocated s.runtime f (none : Option Worker)
        refine owes.born { s.construct f routine with
          runtime := (s.runtime.allocateStack f).setLife f (.built none) } born
          ⟨fun g other => ?_, born.stack, fun _ _ _ _ here => here, fun _ _ _ here => here⟩
          fun _ same => by cases same
        exact (congrFun born.life g).trans (Function.update_of_ne other ..)
      · cases taken
  | outsideSubmit f =>
      simp only [Fibers.step] at taken
      split at taken
      · rename_i built
        cases taken
        refine owes.moved (· = f) ⟨fun g other => Function.update_of_ne other ..,
          fun _ _ => rfl, fun _ _ _ _ here => here, fun _ _ _ here => here⟩ ?_ ?_
        · rintro g w rfl now
          simp [Runtime.setLife] at now
        · rintro g rfl empty
          exact absurd empty (owes.built_stack inv built)
      · cases taken

theorem reaches_owes {payload : Fiber → K} {trace : List (Fibers.Label Worker Fiber K)}
    (run : Reaches (Fibers.step does) unrestricted (Fibers.init does payload) trace s) :
    Owes s := by
  induction run with
  | start =>
      refine ⟨fun f w built => ?_, fun _ _ => .inl rfl⟩
      cases built
  | next label before _ taken ih =>
      obtain ⟨a, inv, _⟩ := reaches_invariant before
      exact ih.step inv taken

end Debts

section Join
variable [DecidableEq Worker] [DecidableEq Fiber] [DecidableEq K] [Fintype Worker]
variable {does : K → Action K → Bool} {payload : Fiber → K} {workers : List Worker}
  {s s' : State Worker Fiber K} {w : Worker} {trace : List (Label Worker Fiber K)}
  {allowed : State Worker Fiber K → Label Worker Fiber K → Prop}

omit [DecidableEq Worker] [DecidableEq Fiber] [DecidableEq K] [Fintype Worker] in
theorem isIdle_iff : s.isIdle w = true ↔ s.fibers.code w = some .idle := by
  unfold State.isIdle
  split
  · simp_all
  · rename_i other
    simpa using other

omit [DecidableEq Worker] [DecidableEq Fiber] [DecidableEq K] in
theorem outstanding_zero : s.outstanding = 0 ↔
    s.workGuard = false ∧ s.fibers.runtime.tasks = [] ∧ ∀ w, s.fibers.code w = some .idle := by
  simp only [State.outstanding, Nat.add_eq_zero_iff, Finset.card_eq_zero,
    Finset.filter_eq_empty_iff, Finset.mem_univ, true_implies, List.length_eq_zero_iff,
    Bool.toNat_eq_zero, Bool.not_eq_false, isIdle_iff, and_assoc]

theorem fibers_step {label : Fibers.Label Worker Fiber K} :
    step does workers s (.fibers label) = some s' ↔ s.admits label ∧
      ∃ fibers, Fibers.step does s.fibers label = some fibers ∧
        { s with fibers := fibers } = s' := by
  simp only [step]
  split <;> simp_all [Option.map_eq_some_iff]

theorem join_step : step does workers s .join = some s' ↔
    s.owner = .outside ∧ (if s.joined then s else { s with owner := .resetting }) = s' := by
  cases owner : s.owner <;> cases joined : s.joined <;> simp [step, owner, joined]

theorem reset_step : step does workers s .reset = some s' ↔ s.owner = .resetting ∧
    { s with
      workGuard := false
      owner := .joining workers } = s' := by
  cases owner : s.owner <;> simp [step, owner]

theorem joinWorker_step : step does workers s .joinWorker = some s' ↔
    ∃ w rest, s.owner = .joining (w :: rest) ∧ s.returned w = true ∧
      { s with owner := .joining rest } = s' := by
  cases owner : s.owner with
  | joining rest => cases rest <;> simp [step, owner, and_assoc]
  | _ => simp [step, owner]

theorem markJoined_step : step does workers s .markJoined = some s' ↔ s.owner = .joining [] ∧
    { s with
      joined := true
      owner := .outside } = s' := by
  cases owner : s.owner with
  | joining rest => cases rest <;> simp [step, owner]
  | _ => simp [step, owner]

theorem pool_step {label : Label Worker Fiber K} (taken : step does workers s label = some s')
    (silent : label.fiber? = none) : s'.fibers = s.fibers := by
  cases label with
  | fibers label => cases silent
  | stop | runReturns =>
      obtain ⟨_, rfl⟩ := guarded_eq_some.mp taken
      rfl
  | join =>
      obtain ⟨_, rfl⟩ := join_step.mp taken
      split <;> rfl
  | reset =>
      obtain ⟨_, rfl⟩ := reset_step.mp taken
      rfl
  | joinWorker =>
      obtain ⟨_, _, _, _, rfl⟩ := joinWorker_step.mp taken
      rfl
  | markJoined =>
      obtain ⟨_, rfl⟩ := markJoined_step.mp taken
      rfl

omit [Fintype Worker] in
theorem idle_takes {f f' : Fibers.State Worker Fiber K} {label : Fibers.Label Worker Fiber K}
    (idle : f.code w = some .idle) (taken : Fibers.step does f label = some f')
    (mine : (Label.fibers label).worker? = some w) : (Label.fibers label).takes = true := by
  have here := code_eq_some idle
  cases label with
  | internal w' =>
      cases mine
      obtain ⟨coroutines, moved, rfl⟩ := Option.map_eq_some_iff.mp taken
      have quiet : StackfulCoroutine.pending (f.coroutines.running w).control = 0 := by
        rw [here]
        rfl
      cases (StackfulCoroutine.internal_pending quiet).symm.trans moved
  | statement w' executed =>
      cases mine
      cases executed with
      | take g => rfl
      | resumed g =>
          obtain ⟨coroutines, moved, rfl⟩ := Option.map_eq_some_iff.mp taken
          simp [StackfulCoroutine.step, here] at moved
      | _ =>
          obtain ⟨k, code, taken⟩ := Option.bind_eq_some_iff.mp taken
          cases idle.symm.trans code
          cases taken
  | outsideSpawn | outsideSubmit => cases mine

omit [Fintype Worker] in
theorem outside_code {f f' : Fibers.State Worker Fiber K} {label : Fibers.Label Worker Fiber K}
    (taken : Fibers.step does f label = some f') (outside : (Label.fibers label).worker? = none)
    (w : Worker) : f'.code w = f.code w := by
  cases label with
  | internal | statement => cases outside
  | outsideSpawn | outsideSubmit =>
      simp only [Fibers.step] at taken
      split at taken
      · cases taken
        rfl
      · cases taken

theorem reaches_fibers
    (run : Reaches (step does workers) allowed (init does payload) trace s) :
    Reaches (Fibers.step does) unrestricted (Fibers.init does payload) (fiberLabels trace)
      s.fibers := by
  induction run with
  | start => exact .start
  | next label _ _ taken ih =>
      rw [fiberLabels, filterMap_snoc]
      cases label with
      | fibers label =>
          obtain ⟨_, fibers, moved, rfl⟩ := fibers_step.mp taken
          exact .next label ih trivial moved
      | _ =>
          rw [pool_step taken rfl]
          simpa [Label.fiber?, fiberLabels] using ih

/-- What the pool's own fields say of each other. -/
structure Order (workers : List Worker) (s : State Worker Fiber K) : Prop where
  idle : s.stopped = true → ∀ w, s.fibers.code w = some .idle
  returned : ∀ w, s.returned w = true → s.stopped = true
  guard : ∀ rest, s.owner = .joining rest → s.workGuard = false
  joining : ∀ rest, s.owner = .joining rest → ∀ w ∈ workers, w ∈ rest ∨ s.returned w = true
  joined : s.joined = true → ∀ w ∈ workers, s.returned w = true

theorem Order.outside (order : Order workers s) (stopped : s.stopped = true)
    {label : Label Worker Fiber K} (taken : FiberPool.step does workers s label = some s') :
    label.worker? = none := by
  cases label with
  | fibers label =>
      obtain ⟨⟨_, supplied⟩, fibers, moved, _⟩ := fibers_step.mp taken
      cases mine : (Label.fibers label).worker? with
      | none => rfl
      | some w =>
          have open' := supplied (idle_takes (order.idle stopped w) moved mine)
          cases stopped.symm.trans open'
  | _ => rfl

theorem Order.step (order : Order workers s) {label : Label Worker Fiber K}
    (taken : FiberPool.step does workers s label = some s') : Order workers s' := by
  cases label with
  | fibers label =>
      obtain ⟨_, fibers, moved, rfl⟩ := fibers_step.mp taken
      refine ⟨fun stopped w => ?_, order.returned, order.guard, order.joining, order.joined⟩
      exact (outside_code moved (order.outside stopped taken) w).trans (order.idle stopped w)
  | stop =>
      obtain ⟨⟨_, none⟩, rfl⟩ := guarded_eq_some.mp taken
      exact ⟨fun _ => (outstanding_zero.mp none).2.2, fun _ _ => rfl, order.guard, order.joining,
        order.joined⟩
  | runReturns w =>
      obtain ⟨⟨stopped, _, _⟩, rfl⟩ := guarded_eq_some.mp taken
      have more {w' : Worker} (before : s.returned w' = true) :
          Function.update s.returned w true w' = true := by
        by_cases same : w' = w
        · simp [same]
        · simpa [same] using before
      exact ⟨order.idle, fun _ _ => stopped, order.guard,
        fun rest here w' member => (order.joining rest here w' member).imp_right more,
        fun joined w' member => more (order.joined joined w' member)⟩
  | join =>
      obtain ⟨_, rfl⟩ := join_step.mp taken
      split
      · exact order
      · exact ⟨order.idle, order.returned, fun _ here => (by cases here),
          fun _ here => (by cases here), order.joined⟩
  | reset =>
      obtain ⟨_, rfl⟩ := reset_step.mp taken
      refine ⟨order.idle, order.returned, fun _ _ => rfl, fun rest here w member => ?_,
        order.joined⟩
      cases here
      exact .inl member
  | joinWorker =>
      obtain ⟨w, rest, here, returned, rfl⟩ := joinWorker_step.mp taken
      refine ⟨order.idle, order.returned, fun _ _ => order.guard _ here,
        fun rest' now w' member => ?_, order.joined⟩
      cases now
      rcases order.joining _ here w' member with inside | before
      · rcases List.mem_cons.mp inside with rfl | later
        · exact .inr returned
        · exact .inl later
      · exact .inr before
  | markJoined =>
      obtain ⟨here, rfl⟩ := markJoined_step.mp taken
      refine ⟨order.idle, order.returned, fun _ now => (by cases now),
        fun _ now => (by cases now), fun _ w member => ?_⟩
      exact (order.joining _ here w member).resolve_left List.not_mem_nil

theorem reaches_order
    (run : Reaches (step does workers) allowed (init does payload) trace s) :
    Order workers s :=
  run.invariant ⟨fun stopped => (by cases stopped), fun _ returned => (by cases returned),
    fun _ here => (by cases here), fun _ here => (by cases here), fun joined => (by cases joined)⟩
    fun _ _ _ order _ taken => order.step taken

/-- Join has been called and waited for everything: at some moment after the work guard was
reset, each fiber that had been submitted was at its end, and no worker has done anything
since. -/
structure Drained (trace early late : List (Label Worker Fiber K)) : Prop where
  cut : trace = early ++ .stop :: late
  reset : .reset ∈ early
  ended : ∀ f, (.submitted, f) ∈ history (fiberLabels early) →
    (.finished, f) ∈ history (fiberLabels early) ∧ (.destroyed, f) ∈ history (fiberLabels early)
  quiet : ∀ label ∈ late, label.worker? = none

end Join

end ConcurrencyCourse.FiberPool
