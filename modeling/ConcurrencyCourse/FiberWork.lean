import ConcurrencyCourse.FiberPool
import Mathlib.Data.Fintype.Option
import Mathlib.Data.Nat.Fib.Basic

/-!
What a pool of fibers has done when Join returns: all the work that the routines spawned
from outside were worth, no more and no less, in whatever order the workers did it.
-/

namespace ConcurrencyCourse.FiberPool

open Interleaving Fibers

variable {Worker Fiber K M : Type*}

/-- The owner of the pool is the only thread outside that spawns fibers. It calls Join
after its calls of Spawn have returned. -/
def ownerOnly (s : State Worker Fiber K) : Label Worker Fiber K → Prop
  | .fibers (.outsideSpawn _ _) | .fibers (.outsideSubmit _) =>
      s.owner = .outside ∧ s.joined = false
  | .join => ∀ f, s.fibers.runtime.life f ≠ .built none
  | _ => True

deriving instance DecidableEq for Life, Owner

instance [DecidableEq Worker] [Fintype Fiber] (s : State Worker Fiber K)
    (label : Label Worker Fiber K) : Decidable (ownerOnly s label) :=
  match label with
  | .fibers (.outsideSpawn _ _) | .fibers (.outsideSubmit _) =>
      inferInstanceAs (Decidable (s.owner = .outside ∧ s.joined = false))
  | .join => inferInstanceAs (Decidable (∀ f, s.fibers.runtime.life f ≠ .built none))
  | .fibers (.internal _) | .fibers (.statement _ _) | .stop | .runReturns _ | .reset
  | .joinWorker | .markJoined => inferInstanceAs (Decidable True)

section Lives
variable [DecidableEq Worker] [DecidableEq Fiber]

inductive Lives (life life' : Fiber → Life Worker) : Prop where
  | same (same : life' = life)
  | becomes (f : Fiber) (next : Life Worker) (inside : next ≠ .built none)
      (update : life' = Function.update life f next)

theorem effect_lives {r r' : Runtime Worker Fiber} {w : Worker} {statement : Statement Fiber K}
    (effect : Effect r w statement r') : Lives r.life r'.life := by
  cases effect with
  -- A fiber built by a fiber has its worker as builder, never the outside.
  | spawn routine rest unborn =>
      exact .becomes _ (.built (some w)) (by simp) (born_acquired r w _ (some w)).life
  | delete f => exact .becomes f .destroyed (by simp) rfl
  | schedule f => exact .becomes f .scheduled (by simp) rfl
  | _ => exact .same rfl

variable [DecidableEq K] {does : K → Action K → Bool} {s s' : Fibers.State Worker Fiber K}

theorem built_outside {label : Fibers.Label Worker Fiber K} {f : Fiber}
    (taken : Fibers.step does s label = some s') (inside : (Label.fibers label).worker? ≠ none)
    (built : s'.runtime.life f = .built none) : s.runtime.life f = .built none := by
  have lives : Lives s.runtime.life s'.runtime.life := by
    cases label with
    | internal w =>
        obtain ⟨coroutines, moved, rfl⟩ := Option.map_eq_some_iff.mp taken
        exact .same rfl
    | statement w executed => exact effect_lives (statement_effect taken)
    | outsideSpawn | outsideSubmit => exact absurd rfl inside
  cases lives with
  | same same => rwa [same] at built
  | becomes g next other update =>
      rw [update] at built
      by_cases self : f = g
      · subst self
        rw [Function.update_self] at built
        exact absurd built other
      · rwa [Function.update_of_ne self] at built

end Lives

section Over
variable [DecidableEq Worker] [DecidableEq Fiber] [DecidableEq K] [Fintype Worker]
variable {does : K → Action K → Bool} {payload : Fiber → K} {workers : List Worker}
  {s s' : State Worker Fiber K} {w : Worker} {trace : List (Label Worker Fiber K)}

def Closed (s : State Worker Fiber K) : Prop :=
  (∃ rest, s.owner = .joining rest) ∨ s.joined = true

/-- From Join on, no fiber waits to be submitted; once the context has stopped there is no
task either. -/
structure Calm (s : State Worker Fiber K) : Prop where
  closed : s.workGuard = false → Closed s
  submitted : Closed s ∨ s.owner = .resetting → ∀ f, s.fibers.runtime.life f ≠ .built none
  empty : s.stopped = true → s.workGuard = false ∧ s.fibers.runtime.tasks = []

omit [DecidableEq Worker] [DecidableEq Fiber] [DecidableEq K] [Fintype Worker] in
theorem Closed.not_outside (closed : Closed s) (label : Fibers.Label Worker Fiber K)
    (outside : (Label.fibers label).worker? = none) : ¬ownerOnly s (.fibers label) := by
  cases label with
  | internal | statement => cases outside
  | outsideSpawn | outsideSubmit =>
      rintro ⟨owner, open'⟩
      rcases closed with ⟨rest, here⟩ | joined
      · cases owner.symm.trans here
      · cases open'.symm.trans joined

theorem Calm.step (calm : Calm s) (order : Order workers s) {label : Label Worker Fiber K}
    (admitted : ownerOnly s label) (taken : FiberPool.step does workers s label = some s') :
    Calm s' := by
  cases label with
  | fibers label =>
      have outside := fun stopped => order.outside stopped taken
      obtain ⟨_, fibers, moved, rfl⟩ := fibers_step.mp taken
      refine ⟨calm.closed, fun ends f built => ?_, fun stopped => ?_⟩
      · by_cases inside : (Label.fibers label).worker? = none
        · rcases ends with closed | resetting
          -- Once Join is under way nobody outside spawns or submits.
          · have before : Closed s := closed
            exact before.not_outside label inside admitted
          · cases label with
            | internal | statement => cases inside
            | outsideSpawn | outsideSubmit => cases admitted.1.symm.trans resetting
        · exact calm.submitted ends f (built_outside moved inside built)
      -- After the stop only calls from outside are left, and the owner makes none.
      · obtain ⟨guard, _⟩ := calm.empty stopped
        exact absurd admitted ((calm.closed guard).not_outside label (outside stopped))
  | stop =>
      obtain ⟨⟨_, none⟩, rfl⟩ := guarded_eq_some.mp taken
      obtain ⟨guard, empty, _⟩ := outstanding_zero.mp none
      exact ⟨calm.closed, calm.submitted, fun _ => ⟨guard, empty⟩⟩
  | runReturns w =>
      obtain ⟨_, rfl⟩ := guarded_eq_some.mp taken
      exact ⟨calm.closed, calm.submitted, calm.empty⟩
  | join =>
      obtain ⟨here, rfl⟩ := join_step.mp taken
      split
      · exact calm
      · rename_i open'
        refine ⟨fun guard => ?_, fun _ => admitted, calm.empty⟩
        rcases calm.closed guard with ⟨rest, owner⟩ | joined
        · cases here.symm.trans owner
        · exact absurd joined open'
  | reset =>
      obtain ⟨here, rfl⟩ := reset_step.mp taken
      refine ⟨fun _ => .inl ⟨_, rfl⟩, fun _ => calm.submitted (.inr here), fun stopped => ?_⟩
      exact ⟨rfl, (calm.empty stopped).2⟩
  | joinWorker =>
      obtain ⟨w, rest, here, _, rfl⟩ := joinWorker_step.mp taken
      exact ⟨fun _ => .inl ⟨rest, rfl⟩, fun _ => calm.submitted (.inl (.inl ⟨_, here⟩)), calm.empty⟩
  | markJoined =>
      obtain ⟨here, rfl⟩ := markJoined_step.mp taken
      exact ⟨fun _ => .inr rfl, fun _ => calm.submitted (.inl (.inl ⟨_, here⟩)), calm.empty⟩

theorem reaches_calm
    (run : Reaches (step does workers) ownerOnly (init does payload) trace s) : Calm s := by
  induction run with
  | start =>
      refine ⟨fun guard => ?_, fun _ _ built => ?_, fun stopped => ?_⟩
      · cases guard
      · cases built
      · cases stopped
  | next label before admitted taken ih => exact ih.step (reaches_order before) admitted taken

theorem joined_over {p : Fiber → Processes.Process K}
    (processes : Reaches (Processes.step (behaviour does)) unrestricted Processes.init
      (observed (Fibers.step does) shown (Fibers.init does payload) (fiberLabels trace)) p)
    (run : Reaches (step does workers) ownerOnly (init does payload) trace s)
    (member : w ∈ workers) (joined : s.joined = true) (f : Fiber) :
    p f = .unborn ∨ p f = .finished := by
  have order := reaches_order run
  have calm := reaches_calm run
  have stopped := order.returned w (order.joined joined w member)
  have idle := order.idle stopped
  have fibers := reaches_fibers run
  obtain ⟨a, inv, own⟩ := reaches_processes fibers
  cases processes.deterministic own
  have stands := inv.stands
  cases life : s.fibers.runtime.life f with
  | unborn => exact .inl ((stands.unborn f).mpr life)
  | built builder =>
      cases builder with
      | none => exact absurd life (calm.submitted (.inl (.inr joined)) f)
      -- Its builder would still be between the two statements of Spawn.
      | some w' =>
          obtain ⟨rest, here⟩ := (reaches_owes fibers).built f w' life
          cases (idle w').symm.trans here
  -- A future would be a task or a worker in Dispatch; there is neither.
  | scheduled =>
      rcases inv.good.covered f life with ⟨task, pending, _⟩ | ⟨w', executes⟩
      · rw [(calm.empty stopped).2] at pending
        cases pending
      · obtain ⟨_, _, _, _, _, unexecuted, _⟩ := inv.code_here (idle w')
        cases unexecuted.symm.trans executes
  | destroyed => exact .inr (stands.destroyed f life)

end Over

section Work
variable [AddCommMonoid M] {worth : K → M} {gives : Processes.Action K → M}

def given (gives : Processes.Action K → M) : Fibers.Label Worker Fiber K → M
  | .statement _ (.segment rest) | .statement _ (.yield rest) => gives (.step rest)
  | .statement _ (.spawn _ routine rest) => gives (.start routine rest)
  | .statement _ (.finish _) => gives .finish
  | _ => 0

def results (gives : Processes.Action K → M) (trace : List (Label Worker Fiber K)) : M :=
  ((fiberLabels trace).map (given gives)).sum

def asks : Fibers.Label Worker Fiber K → Option K
  | .outsideSpawn _ routine => some routine
  | _ => none

def asked (trace : List (Label Worker Fiber K)) : List K :=
  (fiberLabels trace).filterMap asks

def brought (worth : K → M) (label : Fibers.Label Worker Fiber K) : M :=
  ((asks label).map worth).getD 0

theorem brought_asked (trace : List (Label Worker Fiber K)) :
    ((fiberLabels trace).map (brought worth)).sum = ((asked trace).map worth).sum := by
  unfold asked
  induction fiberLabels trace with
  | nil => rfl
  | cons label rest ih =>
      cases shown : asks label <;> simp [brought, shown, ih]

variable [DecidableEq Worker] [DecidableEq Fiber] [DecidableEq K]
variable {does : K → Action K → Bool} {payload : Fiber → K}

theorem shown_given (worth : K → M) (gives : Processes.Action K → M)
    {f f' : Fibers.State Worker Fiber K} {a : Abstract Worker Fiber K}
    (inv : Invariant does f a) {label : Fibers.Label Worker Fiber K}
    (taken : Fibers.step does f label = some f') :
    ((shown f label).toList.map (Processes.Label.given gives)).sum = given gives label ∧
      ((shown f label).toList.map (Processes.Label.brought worth)).sum = brought worth label := by
  cases label with
  | internal | outsideSpawn | outsideSubmit =>
      simp [shown, given, brought, asks, Processes.Label.given, Processes.Label.action,
        Processes.Label.brought]
  | statement w executed =>
      have on_stack {k : K} (here : f.code w = some (.routine k)) :
          ∃ g, f.stack w = .coroutine g := by
        obtain ⟨g, stack, _⟩ := inv.at_routine here
        exact ⟨g, stack⟩
      cases executed with
      -- Done on the stack of a routine, so it is a statement of a process.
      | segment | yield | spawn =>
          obtain ⟨k, code, taken⟩ := Option.bind_eq_some_iff.mp taken
          cases k with
          | routine k =>
              obtain ⟨g, stack⟩ := on_stack code
              simp [shown, stack, Asymmetric.Body.coroutine?, given, brought, asks,
                Processes.Label.given, Processes.Label.action, Processes.Label.brought]
          | _ => cases taken
      | _ =>
          simp [shown, given, brought, asks, Processes.Label.given, Processes.Label.action,
            Processes.Label.brought]

theorem observed_given (worth : K → M) (gives : Processes.Action K → M)
    {f : Fibers.State Worker Fiber K}
    {trace : List (Fibers.Label Worker Fiber K)}
    (run : Reaches (Fibers.step does) unrestricted (Fibers.init does payload) trace f) :
    ((observed (Fibers.step does) shown (Fibers.init does payload) trace).map
        (Processes.Label.given gives)).sum = (trace.map (given gives)).sum ∧
      ((observed (Fibers.step does) shown (Fibers.init does payload) trace).map
        (Processes.Label.brought worth)).sum = (trace.map (brought worth)).sum := by
  induction run with
  | start => exact ⟨rfl, rfl⟩
  | next label before _ taken ih =>
      obtain ⟨a, inv, _⟩ := reaches_invariant before
      obtain ⟨gave, asked⟩ := shown_given worth gives inv taken
      rw [observed_snoc shown before.runs]
      simp only [List.map_append, List.sum_append, ih.1, ih.2, gave, asked]
      simp

variable [Fintype Worker] {workers : List Worker} {s : State Worker Fiber K} {w : Worker}
  {trace : List (Label Worker Fiber K)}

/-- No work is lost and none is done twice. Let each statement of a routine give something,
and each routine be worth what it and the routines it spawns give. Then at any moment of any
run what has been given, and what the routines that have started and not ended are still
worth, make up what was asked for from outside. In a pool with a worker whose owner is the
only one outside to spawn fibers, all routines are over once Join has returned, and nothing
is left. -/
theorem work_conserved (balanced : Processes.Balanced (behaviour does) worth gives)
    (run : Reaches (step does workers) unrestricted (init does payload) trace s) :
    ∃ p living left, Reaches (Processes.step (behaviour does)) unrestricted Processes.init
        (observed (Fibers.step does) shown (Fibers.init does payload) (fiberLabels trace)) p ∧
      Stands p s.fibers ∧ Processes.Accounts worth p living left ∧
      results gives trace + left = ((asked trace).map worth).sum ∧
      ∀ w ∈ workers, Reaches (step does workers) ownerOnly (init does payload) trace s →
        s.joined = true → (∀ f, p f = .unborn ∨ p f = .finished) ∧ left = 0 := by
  have fibers := reaches_fibers run
  obtain ⟨a, inv, processes⟩ := reaches_processes fibers
  obtain ⟨living, left, accounts, total⟩ := Processes.conserved balanced processes
  obtain ⟨gave, wanted⟩ := observed_given worth gives fibers
  rw [gave, wanted, brought_asked] at total
  refine ⟨_, living, left, processes, inv.stands, accounts, total, fun w member owner joined => ?_⟩
  have ended := joined_over processes owner member joined
  exact ⟨ended, accounts.ended ended⟩

end Work

/-! `ForkTester` of tests/fibers.cpp. -/

/-- The code of `MakeForker(d)`: spawn two more of them, or count a leaf. -/
inductive Forker where
  | enter (d : ℕ)
  | second (d : ℕ)
  | counted
  | last
  deriving DecidableEq

def forkers : Forker → Action Forker → Bool
  | .enter d, .spawn (.enter d') (.second d'') => decide (2 < d ∧ d' = d - 2 ∧ d'' = d)
  | .enter d, .segment .counted => decide (d ≤ 2)
  | .second d, .spawn (.enter d') .last => decide (d' = d - 1)
  | .counted, .finish => true
  | .last, .finish => true
  | _, _ => false

/-- `leafs_.fetch_add(1)`. -/
def countsLeaf : Processes.Action Forker → ℕ
  | .step .counted => 1
  | _ => 0

def leaves (d : ℕ) : ℕ :=
  if d ≤ 2 then 1 else Nat.fib d

theorem leaves_fib {d : ℕ} (positive : 0 < d) : leaves d = Nat.fib d := by
  unfold leaves
  split
  · obtain rfl | rfl : d = 1 ∨ d = 2 := by omega
    · rfl
    · rfl
  · rfl

theorem leaves_below {d : ℕ} (big : 2 < d) : leaves d = leaves (d - 1) + leaves (d - 2) := by
  obtain ⟨d, rfl⟩ : ∃ d', d = d' + 2 := ⟨d - 2, by omega⟩
  have smaller : d + 2 - 1 = d + 1 := by omega
  have smallest : d + 2 - 2 = d := by omega
  rw [smaller, smallest, leaves_fib (by omega), leaves_fib (by omega), leaves_fib (by omega),
    Nat.fib_add_two, add_comm]

def Forker.worth : Forker → ℕ
  | enter d => leaves d
  | second d => leaves (d - 1)
  | counted | last => 0

theorem forkers_balanced : Processes.Balanced (behaviour forkers) Forker.worth countsLeaf where
  step k rest may := by
    cases k with
    | enter d => cases rest <;> simp_all [behaviour, forkers, Forker.worth, countsLeaf, leaves]
    | _ => simp [behaviour, forkers] at may
  start k routine rest may := by
    cases k with
    | enter d =>
        cases routine <;> cases rest <;> simp [behaviour, forkers] at may
        obtain ⟨big, rfl, rfl⟩ := may
        simp [Forker.worth, countsLeaf, leaves_below big]
    | second d =>
        cases routine <;> cases rest <;> simp [behaviour, forkers] at may
        subst may
        simp [Forker.worth, countsLeaf]
    | _ => simp [behaviour, forkers] at may
  finish k may := by
    cases k with
    | counted | last => rfl
    | _ => simp [behaviour, forkers] at may

section Forks
variable [DecidableEq Worker] [DecidableEq Fiber] [Fintype Worker] {workers : List Worker}
  {payload : Fiber → Forker} {s : State Worker Fiber Forker} {w : Worker}
  {trace : List (Label Worker Fiber Forker)}

end Forks

def enters (f : Option Bool) : List (Label Unit (Option Bool) Forker) :=
  [.fibers (.statement () (.take f)), .fibers (.statement () .enter),
    .fibers (.statement () .resume), .fibers (.internal ()), .fibers (.internal ()),
    .fibers (.internal ())]

def ends (f : Option Bool) : List (Label Unit (Option Bool) Forker) :=
  [.fibers (.statement () (.finish f)), .fibers (.internal ()), .fibers (.internal ()),
    .fibers (.internal ()), .fibers (.statement () (.resumed f)), .fibers (.statement () .restore),
    .fibers (.statement () .check), .fibers (.statement () (.release f)),
    .fibers (.statement () (.delete f)), .fibers (.statement () .leave)]

/-- `Explode(3)` on a pool of one thread: the forker `none` and the two that it spawns. -/
def explodesThree : List (Label Unit (Option Bool) Forker) :=
  [.fibers (.outsideSpawn none (.enter 3)), .fibers (.outsideSubmit none), .join, .reset] ++
    enters none ++
    [.fibers (.statement () (.spawn (some false) (.enter 1) (.second 3))),
      .fibers (.statement () (.schedule (some false))),
      .fibers (.statement () (.spawn (some true) (.enter 2) .last)),
      .fibers (.statement () (.schedule (some true)))] ++ ends none ++
    enters (some true) ++ [.fibers (.statement () (.segment .counted))] ++ ends (some true) ++
    enters (some false) ++ [.fibers (.statement () (.segment .counted))] ++ ends (some false) ++
    [.stop, .runReturns (), .joinWorker, .markJoined]

def explodesInit : State Unit (Option Bool) Forker :=
  init forkers fun _ => .last

theorem explodesThree_reaches :
    ∃ s, s.joined = true ∧ Reaches (step forkers [()]) ownerOnly explodesInit explodesThree s := by
  have ran : run (restricted (step forkers [()]) ownerOnly) explodesInit explodesThree =
      some _ := rfl
  exact ⟨_, rfl, run_reaches ran⟩

theorem work_conserved_three :
    ∃ s p living, ∃ left : ℕ, run (step forkers [()]) explodesInit explodesThree = some s ∧
      Stands p s.fibers ∧ Processes.Accounts Forker.worth p living left ∧
      results countsLeaf explodesThree + left = 2 ∧ left = 0 := by
  obtain ⟨s, joined, reached⟩ := explodesThree_reaches
  obtain ⟨p, living, left, _, stands, accounts, total, ends⟩ :=
    work_conserved forkers_balanced reached.free
  obtain ⟨_, none⟩ := ends () List.mem_cons_self reached joined
  exact ⟨s, p, living, left, reached.runs, stands, accounts, total, none⟩

end ConcurrencyCourse.FiberPool
