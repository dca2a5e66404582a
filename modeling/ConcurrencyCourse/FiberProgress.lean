import ConcurrencyCourse.FiberPool
import Mathlib.Data.Fintype.EquivFin

/-!
A pool that is being joined can always go on: a worker inside a task has a next statement,
an idle worker a task to take, the context a reason to stop, and Join a thread to join.
-/

namespace ConcurrencyCourse.FiberPool

open Interleaving Asymmetric Fibers

variable {Worker Fiber K : Type*}

/-- The steps of the pool's own threads, of the context and of a Join in progress. -/
def Label.inside : Label Worker Fiber K → Bool
  | fibers (.internal _) | fibers (.statement _ _) => true
  | fibers _ | join => false
  | _ => true

section Workers
variable [DecidableEq Worker] [DecidableEq Fiber] [DecidableEq K]
variable {does : K → Action K → Bool} {payload : Fiber → K} {f : Fibers.State Worker Fiber K}
  {w : Worker} {a : Abstract Worker Fiber K} {trace : List (Fibers.Label Worker Fiber K)}

theorem event_goes {k : Code Fiber K} (here : f.code w = some k)
    {action : Asymmetric.Action Fiber (Code Fiber K) Empty}
    (may : (program does f.payload : Program Worker Fiber _ _).does k action = true)
    (after : Runtime Worker Fiber) : ∃ f', f.event does w (.act action) after = some f' := by
  have control : (f.coroutines.running w).control = .code k := by rw [code_eq_some here]
  obtain ⟨coroutines, moved⟩ : ∃ coroutines, StackfulCoroutine.step (program does f.payload)
      f.coroutines (.event ⟨w, f.stack w, .act action⟩) = some coroutines := by
    simp only [StackfulCoroutine.step, control]
    exact ⟨_, guarded_eq_some.mpr ⟨⟨rfl, may⟩, rfl⟩⟩
  exact ⟨_, Option.map_eq_some_iff.mpr ⟨coroutines, moved, rfl⟩⟩

theorem goto_goes {k : Code Fiber K} (here : f.code w = some k) (next : Code Fiber K)
    (may : (program does f.payload : Program Worker Fiber _ _).does k (.segment next) = true)
    (after : Runtime Worker Fiber) : ∃ f', f.goto does w next after = some f' :=
  event_goes here may after

/-- A worker's own next statement, other than to take a task. -/
def Goes (does : K → Action K → Bool) (f : Fibers.State Worker Fiber K) (w : Worker) : Prop :=
  ∃ label f', Fibers.step does f label = some f' ∧ (Label.fibers label).worker? = some w ∧
    (Label.fibers label).takes = false

theorem Goes.statement (statement : Statement Fiber K) {k : Code Fiber K}
    (here : f.code w = some k) (own : ∀ g, statement ≠ .take g)
    (other : ∀ g, statement ≠ .resumed g)
    (goes : ∃ f', stepStatement does f w statement k = some f') : Goes does f w := by
  obtain ⟨f', taken⟩ := goes
  refine ⟨.statement w statement, f', ?_, rfl, ?_⟩
  · cases statement with
    | resumed g => exact absurd rfl (other g)
    | _ => simpa [Fibers.step, here] using taken
  · cases statement with
    | take g => exact absurd rfl (own g)
    | _ => rfl

theorem fresh_fiber [Infinite Fiber]
    (run : Reaches (Fibers.step does) unrestricted (Fibers.init does payload) trace f) :
    ∃ g, f.runtime.life g = .unborn := by
  obtain ⟨a, inv, processes⟩ := reaches_processes run
  obtain ⟨living, _, accounts⟩ := Processes.reaches_accounts (fun _ => (0 : ℕ)) processes
  obtain ⟨g, outside⟩ := Infinite.exists_notMem_finset living
  rw [accounts.members, not_not] at outside
  exact ⟨g, (inv.stands.unborn g).mp outside⟩

theorem code_goes [Infinite Fiber] (live : ∀ k, ∃ action, does k action = true)
    (run : Reaches (Fibers.step does) unrestricted (Fibers.init does payload) trace f)
    {k : Code Fiber K} (here : f.code w = some k) (busy : k ≠ .idle) : Goes does f w := by
  obtain ⟨a, inv, _⟩ := reaches_invariant run
  obtain ⟨going, stack, point, place⟩ := inv.code_here here
  cases k with
  | idle => exact absurd rfl busy
  | returned =>
      exact .statement .leave here (by simp) (by simp) (goto_goes here _ rfl _)
  | dispatch g =>
      exact .statement .enter here (by simp) (by simp) (goto_goes here _ rfl _)
  | resume g prev =>
      refine .statement .resume here (by simp) (by simp) (event_goes here ?_ _)
      simp [program]
  | restore g prev =>
      exact .statement .restore here (by simp) (by simp) (goto_goes here _ rfl _)
  | check g =>
      refine .statement .check here (by simp) (by simp) ?_
      simp only [stepStatement]
      split
      · exact goto_goes here _ rfl _
      · exact goto_goes here _ rfl _
  | release g =>
      -- The fiber still has its stack: only a worker that is past this point has taken it.
      obtain ⟨_, _, executes, _⟩ := place
      cases owned : f.runtime.fiberStack g with
      | none =>
          rcases (reaches_owes run).stack g owned with unborn | destroyed | ⟨w', there⟩
          · cases unborn.symm.trans (inv.good.executing w g executes)
          · cases destroyed.symm.trans (inv.good.executing w g executes)
          · obtain ⟨_, _, _, _, _, executes', _⟩ := inv.code_here there
            cases inv.good.unique _ _ _ executes executes'
            cases here.symm.trans there
      | some stack =>
          refine .statement (.release g) here (by simp) (by simp) ?_
          simp only [stepStatement, if_true, owned, Option.bind_some]
          exact goto_goes here _ rfl _
  | delete g =>
      refine .statement (.delete g) here (by simp) (by simp) ?_
      simp only [stepStatement, if_true]
      exact goto_goes here _ rfl _
  | schedule g rest =>
      refine .statement (.schedule g) here (by simp) (by simp) ?_
      simp only [stepStatement, if_true]
      exact goto_goes here _ rfl _
  | suspend rest =>
      refine .statement .suspend here (by simp) (by simp) (event_goes here ?_ _)
      simp [program]
  | routine k =>
      obtain ⟨action, may⟩ := live k
      obtain ⟨g, inside, _⟩ := place
      cases action with
      | segment rest =>
          refine .statement (.segment rest) here (by simp) (by simp) ?_
          simp only [stepStatement, may, if_true]
          exact goto_goes here _ rfl _
      | spawn routine rest =>
          obtain ⟨child, unborn⟩ := fresh_fiber run
          refine .statement (.spawn child routine rest) here (by simp) (by simp) ?_
          obtain ⟨f', moved⟩ := goto_goes here (.schedule child rest) rfl
            ((f.runtime.acquireStack w child).setLife child (.built (some w)))
          simp only [stepStatement, unborn, may, if_true]
          exact ⟨_, Option.map_eq_some_iff.mpr ⟨f', moved, rfl⟩⟩
      | yield rest =>
          refine .statement (.yield rest) here (by simp) (by simp) ?_
          simp only [stepStatement, may, if_true, inside.current, Option.bind_some]
          exact goto_goes here _ rfl _
      | finish =>
          refine .statement (.finish g) here (by simp) (by simp) ?_
          simp only [stepStatement, stack, inside.control going, if_true]
          refine event_goes here ?_ _
          exact may

omit [DecidableEq Worker] in
theorem unfinished (inv : Invariant does f a) (w : Worker) :
    (f.coroutines.running w).control ≠ .finished := by
  intro control
  have stage := inv.related.stage w
  generalize f.coroutines.running w = context at stage control
  generalize f.coroutines.current w = current at stage
  generalize within : a.calls w = calls at stage
  generalize outcome : a.ended w = ended at stage
  cases stage with
  | finished here =>
      have own : a.inControl w = .thread w := control_thread within
      cases inv.good.placed w with
      | code _ point _ =>
          rw [own] at point
          cases here.symm.trans point
      | back ended _ _ => cases outcome.symm.trans ended
  | _ => cases control

theorem worker_goes [Infinite Fiber] (live : ∀ k, ∃ action, does k action = true)
    (run : Reaches (Fibers.step does) unrestricted (Fibers.init does payload) trace f)
    (w : Worker) : f.code w = some .idle ∨ Goes does f w := by
  obtain ⟨a, inv, _⟩ := reaches_invariant run
  rcases inv.related.internal w with visible | ⟨coroutines, moved, _, _⟩
  · cases control : (f.coroutines.running w).control with
    | code k =>
        have here : f.code w = some k := by
          rw [Fibers.State.code, control]
        by_cases idle : k = .idle
        · exact .inl (idle ▸ here)
        · exact .inr (code_goes live run here idle)
    | checking callee rest =>
        have quiet : (f.coroutines.coroutine callee).exception = none := by
          cases thrown : (f.coroutines.coroutine callee).exception with
          | none => rfl
          | some e => exact e.elim
        obtain ⟨coroutines, moved⟩ : ∃ coroutines, StackfulCoroutine.step
            (program does f.payload) f.coroutines (.event ⟨w, f.stack w, .resumed callee none⟩) =
              some coroutines := by
          simp only [StackfulCoroutine.step, control]
          exact ⟨_, guarded_eq_some.mpr ⟨⟨rfl, trivial, quiet.symm⟩, rfl⟩⟩
        exact .inr ⟨.statement w (.resumed callee), _,
          Option.map_eq_some_iff.mpr ⟨coroutines, moved, rfl⟩, rfl, rfl⟩
    | finished =>
        exact absurd control (unfinished inv w)
    | uncaught e => exact e.elim
    | _ => simp [StackfulCoroutine.pending, control] at visible
  · exact .inr ⟨.internal w, _, Option.map_eq_some_iff.mpr ⟨coroutines, moved, rfl⟩, rfl, rfl⟩

end Workers

section Pool
variable [DecidableEq Worker] [DecidableEq Fiber] [DecidableEq K] [Fintype Worker]
variable {does : K → Action K → Bool} {payload : Fiber → K} {workers : List Worker}
  {s : State Worker Fiber K} {w : Worker} {trace : List (Label Worker Fiber K)}

def Advances (does : K → Action K → Bool) (workers : List Worker) (s : State Worker Fiber K) :
    Prop :=
  ∃ label s', label.inside = true ∧ step does workers s label = some s'

theorem Goes.advances (goes : Goes does s.fibers w) (running : s.returned w = false) :
    Advances does workers s := by
  obtain ⟨label, f', taken, mine, other⟩ := goes
  refine ⟨.fibers label, _, ?_,
    fibers_step.mpr ⟨⟨fun w' own => ?_, fun takes => ?_⟩, f', taken, rfl⟩⟩
  · cases label <;> first | rfl | cases mine
  · cases mine.symm.trans own
    exact running
  · cases other.symm.trans takes

theorem take_advances {g : Fiber} (idle : s.fibers.code w = some .idle)
    (pending : ⟨g, none⟩ ∈ s.fibers.runtime.tasks) (running : s.returned w = false)
    (open' : s.stopped = false) : Advances does workers s := by
  obtain ⟨f', moved⟩ : ∃ f', stepStatement does s.fibers w (.take g) .idle = some f' := by
    simp only [stepStatement, pending, if_true]
    exact goto_goes idle _ rfl _
  have taken : Fibers.step does s.fibers (.statement w (.take g)) = some f' := by
    simpa [Fibers.step, idle] using moved
  refine ⟨.fibers (.statement w (.take g)), _, rfl,
    fibers_step.mpr ⟨⟨fun w' own => ?_, fun _ => open'⟩, f', taken, rfl⟩⟩
  cases own
  exact running

/-- Join never hangs: until it has returned, however far the pool and its fibers have come,
some thread of the pool, the context or Join itself has a next step, as long as every point
of a routine's code has one. -/
theorem never_stuck [Infinite Fiber] (live : ∀ k, ∃ action, does k action = true)
    (run : Reaches (step does workers) unrestricted (init does payload) trace s)
    (called : s.owner ≠ .outside) : Advances does workers s := by
  have order := reaches_order run
  have fibers := reaches_fibers run
  cases owner : s.owner with
  | outside => exact absurd owner called
  | resetting => exact ⟨.reset, _, rfl, reset_step.mpr ⟨owner, rfl⟩⟩
  | joining rest =>
      cases rest with
      | nil => exact ⟨.markJoined, _, rfl, markJoined_step.mpr ⟨owner, rfl⟩⟩
      | cons w rest =>
          by_cases returned : s.returned w = true
          · exact ⟨.joinWorker, _, rfl, joinWorker_step.mpr ⟨w, rest, owner, returned, rfl⟩⟩
          · have inside : s.returned w = false := by simpa using returned
            by_cases stopped : s.stopped = true
            · have idle := isIdle_iff.mpr (order.idle stopped w)
              exact ⟨.runReturns w, _, rfl, guarded_eq_some.mpr ⟨⟨stopped, idle, inside⟩, rfl⟩⟩
            · have running (w' : Worker) : s.returned w' = false := by
                by_contra left
                exact stopped (order.returned w' (by simpa using left))
              have open' : s.stopped = false := by simpa using stopped
              by_cases idle : ∀ w', s.fibers.code w' = some .idle
              · cases tasks : s.fibers.runtime.tasks with
                | nil =>
                    have none := outstanding_zero.mpr ⟨order.guard _ owner, tasks, idle⟩
                    exact ⟨.stop, _, rfl, guarded_eq_some.mpr ⟨⟨open', none⟩, rfl⟩⟩
                | cons task others =>
                    -- No idle worker has a continuation that waits for it.
                    obtain ⟨a, inv, _⟩ := reaches_invariant fibers
                    have pending : task ∈ s.fibers.runtime.tasks := by simp [tasks]
                    obtain ⟨g, after⟩ := task
                    cases after with
                    | none => exact take_advances (idle w) pending inside open'
                    | some w' =>
                        obtain ⟨_, _, _, _, _, _, alone⟩ := inv.code_here (idle w')
                        exact absurd rfl (alone _ pending)
              · obtain ⟨w', busy⟩ := not_forall.mp idle
                have goes := (worker_goes live fibers w').resolve_left busy
                exact goes.advances (running w')

end Pool
end ConcurrencyCourse.FiberPool
