import ConcurrencyCourse.OneFuture
import ConcurrencyCourse.Processes

/-!
What fibers are for. Each routine is a sequential process: it goes its own way from Spawn
to its end, and neither Yield, nor the thread that it continues on, nor what becomes of
the other fibers shows in it. Every run of the fibers is a run of such processes.
-/

namespace ConcurrencyCourse.Fibers

open Interleaving Asymmetric
open Processes (Process)

variable {Worker Fiber K : Type*}

/-- A routine as a sequential process. To yield is to go on. -/
def behaviour (does : K → Action K → Bool) (k : K) : Processes.Action K → Bool
  | .step rest => does k (.segment rest) || does k (.yield rest)
  | .start routine rest => does k (.spawn routine rest)
  | .finish => does k .finish

/-- The process on whose stack a statement is done, and what it does. -/
def shown (s : State Worker Fiber K) : Label Worker Fiber K → Option (Processes.Label Fiber K)
  | .outsideSpawn f routine => some (.begins f routine)
  | .statement w (.segment rest) | .statement w (.yield rest) =>
      (s.stack w).coroutine?.map fun f => .steps f rest
  | .statement w (.spawn g routine rest) =>
      (s.stack w).coroutine?.map fun f => .starts f g routine rest
  | .statement _ (.finish f) => some (.finishes f)
  | _ => none

/-- Where the routine of a fiber is. Inside Spawn and Yield it is already behind them. -/
def going : Position Fiber (Code Fiber K) Empty → Process K
  | .code (.routine k) | .code (.schedule _ k) | .code (.suspend k) => .running k
  | _ => .finished

def process (r : Runtime Worker Fiber) (a : Abstract Worker Fiber K) (f : Fiber) : Process K :=
  if (r.life f).isBorn then going (a.position (.coroutine f)) else .unborn

theorem going_born (there : Position Fiber (Code Fiber K) Empty) : going there ≠ .unborn := by
  unfold going
  split <;> simp

section Frames
variable {r r' : Runtime Worker Fiber} {a : Abstract Worker Fiber K} {w : Worker} {f : Fiber}

theorem process_born (born : (r.life f).isBorn = true) :
    process r a f = going (a.position (.coroutine f)) := if_pos born

theorem process_unborn (unborn : r.life f = .unborn) : process r a f = .unborn := by
  simp [process, unborn, Life.isBorn]

theorem process_scheduled (good : Good r a) (executes : r.executes w = some f) :
    (r.life f).isBorn = true := by
  rw [good.executing w f executes]
  rfl

theorem born_setLife [DecidableEq Fiber] (alive : (r.life f).isBorn = true) {life : Life Worker}
    (lives : life.isBorn = true) (g : Fiber) :
    ((r.setLife f life).life g).isBorn = (r.life g).isBorn := by
  by_cases same : g = f
  · subst same
    simp [Runtime.setLife, alive, lives]
  · simp [Runtime.setLife, same]

variable [DecidableEq Worker] [DecidableEq Fiber] {e : Event Fiber (Code Fiber K) Empty}
  {there : Position Fiber (Code Fiber K) Empty}

theorem process_thread (own : a.inControl w = .thread w)
    (born : ∀ f, (r'.life f).isBorn = (r.life f).isBorn) :
    process r' (a.after w e there) = process r a := by
  funext f
  rw [process, process, born, after_thread own]

theorem process_fiber (own : a.inControl w = .coroutine f) (alive : (r.life f).isBorn = true)
    (born : ∀ f, (r'.life f).isBorn = (r.life f).isBorn) :
    process r' (a.after w e there) = Function.update (process r a) f (going there) := by
  funext g
  by_cases same : g = f
  · subst same
    rw [Function.update_self, process_born ((born g).trans alive), after_own own]
  · rw [Function.update_of_ne same, process, process, born,
      after_other (by rw [own]; simpa [eq_comm] using same)]

theorem process_stays (own : a.inControl w = .coroutine f) (alive : (r.life f).isBorn = true)
    (born : ∀ f, (r'.life f).isBorn = (r.life f).isBorn)
    (still : going there = going (a.position (.coroutine f))) :
    process r' (a.after w e there) = process r a := by
  rw [process_fiber own alive born, still, ← process_born alive, Function.update_eq_self]

theorem process_constructed {builder : Option Worker} {g : Fiber} {routine : K}
    (born : Born r r' g builder) :
    process r' { a with
      position := Function.update a.position (.coroutine g) (.code (.routine routine)) } =
      Function.update (process r a) g (.running routine) := by
  funext f
  by_cases same : f = g
  · subst same
    simp [process, born.life, Life.isBorn, going]
  · simp [process, born.life, same]

end Frames

section Statements
variable [DecidableEq Worker] [DecidableEq Fiber] [DecidableEq K]
variable {does : K → Action K → Bool} {s s' : State Worker Fiber K}
  {a : Abstract Worker Fiber K} {w : Worker} {f : Fiber} {after : Runtime Worker Fiber}

/-- What a step shows is a step of the processes, and what it hides is none. -/
def Performs (does : K → Action K → Bool) (p p' : Fiber → Process K)
    (seen : Option (Processes.Label Fiber K)) : Prop :=
  (seen = none ∧ p' = p) ∨
    ∃ visible, seen = some visible ∧ Processes.step (behaviour does) p visible = some p'

def Proceeds (does : K → Action K → Bool) (s : State Worker Fiber K) (a : Abstract Worker Fiber K)
    (s' : State Worker Fiber K) (seen : Option (Processes.Label Fiber K)) : Prop :=
  ∃ a', Invariant does s' a' ∧ Performs does (process s.runtime a) (process s'.runtime a') seen

theorem Invariant.goes (inv : Invariant does s a) {k : Code Fiber K}
    (taken : s.goto does w k after = some s')
    (good : Good after (a.after w (.act (.segment k)) (.code k))) :
    Invariant does s' (a.after w (.act (.segment k)) (.code k)) ∧ s'.runtime = after := by
  obtain ⟨there, effect, _, advanced, still⟩ := inv.event (move_free _ rfl rfl _) taken
  obtain ⟨_, point, _, rfl⟩ := Program.advance_act.mp advanced
  exact ⟨⟨still, effect ▸ good⟩, effect⟩

theorem Invariant.ownCode (inv : Invariant does s a) {k : Code Fiber K}
    (own : a.inControl w = .thread w) (taken : s.goto does w k after = some s')
    (good : Good after (a.after w (.act (.segment k)) (.code k)))
    (born : ∀ f, (after.life f).isBorn = (s.runtime.life f).isBorn) :
    Proceeds does s a s' none := by
  obtain ⟨inv', rfl⟩ := inv.goes taken good
  exact ⟨_, inv', .inl ⟨rfl, process_thread own born⟩⟩

-- The statements of the workers' own code.

theorem Invariant.proceeds_check (inv : Invariant does s a) (here : s.code w = some (.check f))
    (unfinished : (s.coroutines.coroutine f).isCompleted = false)
    (moved : s.goto does w .returned (s.runtime.setExecutes w none) = some s') :
    Proceeds does s a s' none := by
  obtain ⟨going, _, _, place⟩ := inv.code_here here
  rw [(inv.related.idle f (inv.good.outside place.2.2.1 place.1)).completed] at unfinished
  exact inv.ownCode (control_thread place.1) moved (inv.good.checkYielded going place unfinished)
    fun _ => rfl

-- Resume, Suspend and the return of Resume.

theorem Invariant.proceeds_resume (inv : Invariant does s a) {prev : Option Fiber}
    (here : s.code w = some (.resume f prev))
    (taken : s.event does w (.act (.resume f (.restore f prev))) s.runtime = some s') :
    Proceeds does s a s' none := by
  obtain ⟨going, _, point, place⟩ := inv.code_here here
  obtain ⟨there, effect, _, advanced, still⟩ := inv.event (inv.resume_admitted here) taken
  obtain ⟨_, point', _, rfl⟩ := Program.advance_act.mp advanced
  cases point.symm.trans point'
  refine ⟨_, ⟨still, effect ▸ inv.good.resume going place⟩, .inl ⟨rfl, ?_⟩⟩
  rw [effect]
  exact process_thread (control_thread place.2.1) fun _ => rfl

theorem Invariant.proceeds_resumed (inv : Invariant does s a)
    (taken : s.event does w (.resumed f none) s.runtime = some s') :
    Proceeds does s a s' none := by
  obtain ⟨there, effect, due, advanced, still⟩ := inv.event (move_free _ rfl rfl _) taken
  obtain ⟨rest, waits, rfl⟩ := Program.advance_resumed.mp advanced
  cases inv.good.placed w with
  | code going _ _ =>
      rw [going] at due
      cases due
  | back ended inside result =>
      have control := inside.control_back ended
      have own := waits
      rw [control, inside.waits] at own
      cases own
      refine ⟨_, ⟨still, effect ▸ inv.good.resumed ended inside result⟩, .inl ⟨rfl, ?_⟩⟩
      rw [effect]
      exact process_thread control fun _ => rfl

theorem Invariant.proceeds_suspend (inv : Invariant does s a) {rest : K}
    (here : s.code w = some (.suspend rest))
    (taken : s.event does w (.act (.suspend (.routine rest))) s.runtime = some s') :
    Proceeds does s a s' none := by
  obtain ⟨still, _, point, place⟩ := inv.code_here here
  have ⟨f, inside, _⟩ := place
  have own := inside.control still
  obtain ⟨there, effect, _, advanced, related⟩ := inv.event (inv.suspend_admitted here) taken
  obtain ⟨_, point', _, rfl⟩ := Program.advance_act.mp advanced
  cases point.symm.trans point'
  refine ⟨_, ⟨related, effect ▸ inv.good.suspend still place⟩, .inl ⟨rfl, ?_⟩⟩
  rw [effect]
  refine process_stays own (process_scheduled inv.good inside.executes) (fun _ => rfl) ?_
  rw [← own, point]
  rfl

-- The statements of a routine.

omit [DecidableEq Worker] in
theorem Invariant.at_routine (inv : Invariant does s a) {k : K}
    (here : s.code w = some (.routine k)) :
    ∃ f, s.stack w = .coroutine f ∧ a.inControl w = .coroutine f ∧
      (s.runtime.life f).isBorn = true ∧ process s.runtime a f = .running k := by
  obtain ⟨still, stack, point, place⟩ := inv.code_here here
  have ⟨f, inside, _⟩ := place
  have own := inside.control still
  have alive := process_scheduled inv.good inside.executes
  refine ⟨f, stack.trans own, own, alive, ?_⟩
  rw [process_born alive, ← own, point]
  rfl

theorem Invariant.proceeds_on (inv : Invariant does s a) {k rest : K} {next : Code Fiber K}
    (here : s.code w = some (.routine k)) (taken : s.goto does w next after = some s')
    (good : Good after (a.after w (.act (.segment next)) (.code next)))
    (born : ∀ f, (after.life f).isBorn = (s.runtime.life f).isBorn)
    (leads : going (.code next : Position Fiber _ Empty) = .running rest)
    (may : behaviour does k (.step rest) = true) :
    Proceeds does s a s' ((s.stack w).coroutine?.map fun f => .steps f rest) := by
  obtain ⟨f, stack, own, alive, at_k⟩ := inv.at_routine here
  obtain ⟨inv', rfl⟩ := inv.goes taken good
  refine ⟨_, inv', .inr ⟨_, by rw [stack]; rfl, ?_⟩⟩
  simp only [Processes.step, at_k]
  rw [guarded_eq_some, process_fiber own alive born, leads]
  exact ⟨may, rfl⟩

theorem Invariant.proceeds_finish (inv : Invariant does s a) {k : K}
    (here : s.code w = some (.routine k)) (mine : s.stack w = .coroutine f)
    (moved : s.event does w (.act .finish) s.runtime = some s') :
    Proceeds does s a s' (shown s (.statement w (.finish f))) := by
  obtain ⟨still, _, point, place⟩ := inv.code_here here
  obtain ⟨f', stack, own, alive, at_k⟩ := inv.at_routine here
  cases mine.symm.trans stack
  obtain ⟨there, effect, _, advanced, related⟩ := inv.event (move_free _ rfl rfl _) moved
  obtain ⟨_, point', may, rfl⟩ := Program.advance_act.mp advanced
  cases point.symm.trans point'
  refine ⟨_, ⟨related, effect ▸ inv.good.finish still place⟩, .inr ⟨_, rfl, ?_⟩⟩
  simp only [Processes.step, at_k]
  rw [guarded_eq_some, effect, process_fiber own alive fun _ => rfl]
  exact ⟨may, rfl⟩

theorem Invariant.proceeds_schedule (inv : Invariant does s a) {rest : K}
    (here : s.code w = some (.schedule f rest))
    (moved : s.goto does w (.routine rest) ((s.runtime.submit f none).setLife f .scheduled) =
      some s') : Proceeds does s a s' none := by
  obtain ⟨still, _, point, place⟩ := inv.code_here here
  have ⟨g, inside, _, built⟩ := place
  have own := inside.control still
  obtain ⟨inv', effect⟩ := inv.goes moved (inv.good.schedule still place)
  have born : ((s.runtime.submit f none).life f).isBorn = true := by
    change (s.runtime.life f).isBorn = true
    rw [built]
    rfl
  refine ⟨_, inv', .inl ⟨rfl, ?_⟩⟩
  rw [effect]
  refine process_stays own (process_scheduled inv.good inside.executes) (born_setLife born rfl) ?_
  rw [← own, point]
  rfl

-- The birth of a fiber.

theorem Invariant.proceeds_spawn (inv : Invariant does s a) {k routine rest : K}
    {next : State Worker Fiber K} (here : s.code w = some (.routine k))
    (unborn : s.runtime.life f = .unborn) (may : does k (.spawn routine rest) = true)
    (moved : s.goto does w (.schedule f rest)
      ((s.runtime.acquireStack w f).setLife f (.built (some w))) = some next) :
    Proceeds does s a (next.construct f routine)
      (shown s (.statement w (.spawn f routine rest))) := by
  obtain ⟨still, _, _, place⟩ := inv.code_here here
  obtain ⟨parent, stack, own, alive, at_k⟩ := inv.at_routine here
  have born := born_acquired s.runtime w f (some w)
  obtain ⟨inv', effect⟩ := inv.goes moved (inv.good.spawn still place unborn born)
  have built : next.runtime.life f = .built (some w) := by
    rw [effect, born.life, Function.update_self]
  refine ⟨_, inv'.constructed built routine, .inr ⟨_, by rw [shown, stack]; rfl, ?_⟩⟩
  change _ = some (process next.runtime _)
  simp only [Processes.step, at_k, process_unborn (a := a) unborn]
  rw [guarded_eq_some, effect, process_constructed born, process_fiber own alive fun _ => rfl]
  exact ⟨may, rfl⟩

theorem Invariant.proceeds_executes (inv : Invariant does s a) {statement : Statement Fiber K}
    {k : Code Fiber K} (here : s.code w = some k) (executes : Executes does s w statement k s') :
    Proceeds does s a s' (shown s (.statement w statement)) := by
  obtain ⟨still, _, _, place⟩ := inv.code_here here
  cases executes with
  | take pending moved =>
      exact inv.ownCode (control_thread place.1) moved (inv.good.take still place pending)
        fun _ => rfl
  | enter moved =>
      exact inv.ownCode (control_thread place.1) moved (inv.good.enter still place) fun _ => rfl
  | resume moved => exact inv.proceeds_resume here moved
  | restore moved =>
      exact inv.ownCode (control_thread place.2.1) moved (inv.good.restore still place)
        fun _ => rfl
  | completed reports moved =>
      have ends := inv.related.completed reports
      exact inv.ownCode (control_thread place.1) moved (inv.good.checkCompleted still place ends)
        fun _ => rfl
  | yielded silent moved => exact inv.proceeds_check here (by simpa using silent) moved
  | @release _ stack _ owned moved =>
      exact inv.ownCode (control_thread place.1) moved (inv.good.release still place stack)
        fun _ => rfl
  | delete moved =>
      exact inv.ownCode (control_thread place.1) moved (inv.good.delete still place)
        (born_setLife (process_scheduled inv.good place.2.2.1) rfl)
  | leave moved =>
      exact inv.ownCode (control_thread place.1) moved (inv.good.leave still place) fun _ => rfl
  | segment may moved =>
      exact inv.proceeds_on here moved (inv.good.segment still place) (fun _ => rfl) rfl
        (by simp [behaviour, may])
  | spawn unborn may moved => exact inv.proceeds_spawn here unborn may moved
  | schedule moved => exact inv.proceeds_schedule here moved
  | yield may current moved =>
      exact inv.proceeds_on here moved (inv.good.yield still place current) (fun _ => rfl) rfl
        (by simp [behaviour, may])
  | suspend moved => exact inv.proceeds_suspend here moved
  | finish mine moved => exact inv.proceeds_finish here mine moved

theorem Invariant.proceeds_outsideSpawn (inv : Invariant does s a)
    (unborn : s.runtime.life f = .unborn) (routine : K) :
    Proceeds does s a { s.construct f routine with
      runtime := (s.runtime.allocateStack f).setLife f (.built none) }
      (some (.begins f routine)) := by
  have born := born_allocated s.runtime f (none : Option Worker)
  have built : ((s.runtime.allocateStack f).setLife f (.built none)).life f = .built none := by
    rw [born.life, Function.update_self]
  refine ⟨_, (inv.allocated unborn).constructed built routine, .inr ⟨_, rfl, ?_⟩⟩
  simp only [Processes.step, process_unborn (a := a) unborn]
  rw [process_constructed born]

omit [DecidableEq Worker] in
theorem Invariant.proceeds_outsideSubmit (inv : Invariant does s a)
    (built : s.runtime.life f = .built none) :
    Proceeds does s a { s with
      runtime := (s.runtime.submit f none).setLife f .scheduled } none := by
  have good := inv.good.scheduled built
    (fun w => (inv.good.placed w).kept ⟨inv.good.spared_scheduled built (by simp), rfl, rfl, rfl,
      fun _ _ => rfl⟩) fun _ _ => rfl
  refine ⟨a, ⟨inv.related, good⟩, .inl ⟨rfl, ?_⟩⟩
  have born : ((s.runtime.submit f none).life f).isBorn = true := by
    change (s.runtime.life f).isBorn = true
    rw [built]
    rfl
  funext g
  rw [process, process, born_setLife born rfl]
  rfl

theorem Invariant.proceeds (inv : Invariant does s a) {label : Label Worker Fiber K}
    (taken : Fibers.step does s label = some s') : Proceeds does s a s' (shown s label) := by
  cases label with
  | internal w =>
      obtain ⟨coroutines, moved, rfl⟩ := Option.map_eq_some_iff.mp taken
      exact ⟨a, ⟨inv.related.internal_kept moved, inv.good⟩, .inl ⟨rfl, rfl⟩⟩
  | statement w executed =>
      rcases statement_executes taken with ⟨f, rfl, moved⟩ | ⟨k, here, executes⟩
      · exact inv.proceeds_resumed moved
      · exact inv.proceeds_executes here executes
  | outsideSpawn f routine =>
      simp only [Fibers.step] at taken
      split at taken
      · rename_i unborn
        cases taken
        exact inv.proceeds_outsideSpawn unborn routine
      · cases taken
  | outsideSubmit f =>
      simp only [Fibers.step] at taken
      split at taken
      · rename_i built
        cases taken
        exact inv.proceeds_outsideSubmit built
      · cases taken

/-- What the runtime and the workers say of the processes. -/
structure Stands (p : Fiber → Process K) (s : State Worker Fiber K) : Prop where
  unborn : ∀ f, p f = .unborn ↔ s.runtime.life f = .unborn
  destroyed : ∀ f, s.runtime.life f = .destroyed → p f = .finished
  running : ∀ w f k, s.stack w = .coroutine f → s.code w = some (.routine k) → p f = .running k

omit [DecidableEq Worker] in
theorem Invariant.stands (inv : Invariant does s a) : Stands (process s.runtime a) s where
  unborn f := by
    refine ⟨fun unborn => ?_, process_unborn⟩
    by_contra other
    have born : (s.runtime.life f).isBorn = true := by
      by_contra fresh
      exact other (Life.unborn_of (by simpa using fresh))
    exact going_born _ ((process_born born).symm.trans unborn)
  destroyed f gone := by
    rw [process_born (by rw [gone]; rfl), (inv.good.released f gone).2]
    rfl
  running w f k stack here := by
    obtain ⟨f', stack', _, _, at_k⟩ := inv.at_routine here
    cases stack.symm.trans stack'
    exact at_k

theorem reaches_processes {payload : Fiber → K} {trace : List (Label Worker Fiber K)}
    (run : Reaches (step does) unrestricted (init does payload) trace s) :
    ∃ a, Invariant does s a ∧ Reaches (Processes.step (behaviour does)) unrestricted
      Processes.init (observed (step does) shown (init does payload) trace)
      (process s.runtime a) := by
  obtain ⟨_, processes, a, inv, rfl⟩ := run.simulates_observed shown
    (fun s p => ∃ a, Invariant does s a ∧ process s.runtime a = p)
    ⟨_, init_invariant does payload, rfl⟩ fun s label after p related taken => by
      obtain ⟨a, inv, rfl⟩ := related
      obtain ⟨a', inv', ⟨hidden, still⟩ | ⟨visible, seen, moved⟩⟩ := inv.proceeds taken
      · exact .inl ⟨hidden, a', inv', still⟩
      · exact .inr ⟨visible, _, seen, moved, a', inv', rfl⟩
  exact ⟨a, inv, processes⟩

/-- Fibers are sequential processes. Read off the stacks on which they are done, the
statements of the routines in any run of the pool are a run of independent processes, and
every routine is where its process is. -/
theorem fibers_refine_processes {payload : Fiber → K} {trace : List (Label Worker Fiber K)}
    (run : Reaches (step does) unrestricted (init does payload) trace s) :
    ∃ p, Reaches (Processes.step (behaviour does)) unrestricted Processes.init
        (observed (step does) shown (init does payload) trace) p ∧ Stands p s := by
  obtain ⟨a, inv, processes⟩ := reaches_processes run
  exact ⟨_, processes, inv.stands⟩

end Statements

def yieldsOnce : ℕ → Action ℕ → Bool
  | 0, .yield 1 => true
  | 1, .finish => true
  | _, _ => false

/-- It comes back on the other worker, and its process has taken two steps. -/
theorem fibers_refine_processes_migrated :
    ∃ (trace : List (Label Bool Unit ℕ)) (s : State Bool Unit ℕ) (p : Unit → Process ℕ),
      run (step yieldsOnce) (init yieldsOnce fun _ => 0) trace = some s ∧
      Reaches (Processes.step (behaviour yieldsOnce)) unrestricted Processes.init
        [.begins () 0, .steps () 1, .finishes ()] p ∧ Stands p s ∧ p () = .finished := by
  let trace : List (Label Bool Unit ℕ) :=
    [.outsideSpawn () 0, .outsideSubmit (), .statement false (.take ()), .statement false .enter,
      .statement false .resume, .internal false, .internal false, .internal false,
      .statement false (.yield 1), .statement false .suspend, .internal false, .internal false,
      .statement false (.resumed ()), .statement false .restore, .statement false .check,
      .statement false .leave, .statement true (.take ()), .statement true .enter,
      .statement true .resume, .internal true, .internal true, .statement true (.finish ()),
      .internal true, .internal true, .internal true, .statement true (.resumed ()),
      .statement true .restore, .statement true .check, .statement true (.release ()),
      .statement true (.delete ())]
  have ran : run (step yieldsOnce) (init yieldsOnce fun _ => 0) trace = some _ := rfl
  obtain ⟨p, processes, stands⟩ := fibers_refine_processes (run_free ran)
  exact ⟨trace, _, p, ran, processes, stands, stands.destroyed () rfl⟩

end ConcurrencyCourse.Fibers
