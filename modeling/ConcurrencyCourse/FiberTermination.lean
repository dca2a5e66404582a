import ConcurrencyCourse.FiberProgress
import ConcurrencyCourse.FiberWork
import ConcurrencyCourse.Headcount

/-!
Join returns. Every statement of a worker brings the pool nearer to its end: what a routine
does was part of what it is worth, and everything between two of its statements leads
towards the next one or to the end of a task.
-/

namespace ConcurrencyCourse.FiberPool

open Interleaving Asymmetric Fibers
open StackfulCoroutine (Control Coroutine)

variable {Worker Fiber K : Type*}

/-- A fiber is saved in the middle of its routine or before its start, and a worker where it
waits for Resume to come back. -/
structure Shaped (s : StackfulCoroutine.State Worker Fiber (Code Fiber K) Empty) : Prop where
  context : ∀ f, (s.coroutine f).coroutineContext.control = .starting ∨
    ∃ k, (s.coroutine f).coroutineContext.control = .code (.routine k)
  caller : ∀ f saved, (s.coroutine f).callerContext = some saved →
    ∃ callee last rest, saved.control = .switched callee last rest
  suspending : ∀ w rest, (s.running w).control = .suspending rest → ∃ k, rest = .routine k

def load : Control Fiber (Code Fiber K) Empty → ℕ
  | .code .idle => 0
  | .code .returned => 5
  | .code (.delete _) => 10
  | .code (.release _) => 15
  | .code (.check _) => 20
  | .code (.restore _ _) => 25
  | .checking _ _ => 30
  | .switched _ _ _ => 31
  | .suspending _ => 32
  | .exiting => 32
  | .completing => 33
  | .caught _ => 34
  | .code (.suspend _) => 35
  | .code (.routine _) => 40
  | .starting => 41
  | .switching _ _ _ => 42
  | .resuming _ _ => 43
  | .code (.resume _ _) => 45
  | .code (.dispatch _) => 50
  | .code (.schedule _ _) => 95
  | .finished => 0
  | .uncaught _ => 0

section Internal
variable [DecidableEq Worker] [DecidableEq Fiber]
variable {program : Program Worker Fiber (Code Fiber K) Empty}
  {s s' : StackfulCoroutine.State Worker Fiber (Code Fiber K) Empty} {w : Worker}

omit [DecidableEq Worker] in
theorem Shaped.stored (shaped : Shaped s) {f : Fiber}
    {fields : Coroutine Worker Fiber (Code Fiber K) Empty}
    (context : fields.coroutineContext.control = .starting ∨
      ∃ k, fields.coroutineContext.control = .code (.routine k))
    (caller : ∀ saved, fields.callerContext = some saved →
      ∃ callee last rest, saved.control = .switched callee last rest) :
    Shaped (s.setCoroutine f fields) := by
  refine ⟨fun g => ?_, fun g saved here => ?_, shaped.suspending⟩
  · by_cases same : g = f
    · subst same
      simpa [StackfulCoroutine.State.setCoroutine] using context
    · simpa [StackfulCoroutine.State.setCoroutine, same] using shaped.context g
  · by_cases same : g = f
    · subst same
      exact caller saved (by simpa [StackfulCoroutine.State.setCoroutine] using here)
    · exact shaped.caller g saved (by simpa [StackfulCoroutine.State.setCoroutine, same] using here)

omit [DecidableEq Worker] [DecidableEq Fiber] in
theorem Shaped.still (shaped : Shaped s) (running : s'.running = s.running)
    (coroutine : s'.coroutine = s.coroutine) : Shaped s' where
  context f := by
    rw [coroutine]
    exact shaped.context f
  caller f := by
    rw [coroutine]
    exact shaped.caller f
  suspending w := by
    rw [running]
    exact shaped.suspending w

omit [DecidableEq Fiber] in
theorem Shaped.goto (shaped : Shaped s)
    {context : StackfulCoroutine.ExecutionContext Worker Fiber (Code Fiber K) Empty}
    (suspends : ∀ rest, context.control = .suspending rest → ∃ k, rest = .routine k) :
    Shaped (s.goto w context) := by
  refine ⟨shaped.context, shaped.caller, fun w' rest here => ?_⟩
  by_cases same : w' = w
  · subst same
    exact suspends rest (by simpa [StackfulCoroutine.State.goto] using here)
  · exact shaped.suspending w' rest (by simpa [StackfulCoroutine.State.goto, same] using here)

theorem Shaped.internal (shaped : Shaped s)
    (starts : ∀ f, ∃ k, program.payload f = .routine k)
    (taken : StackfulCoroutine.internalStep program s w = some s') :
    Shaped s' ∧ load (s'.running w).control < load (s.running w).control := by
  generalize here : s.running w = context at taken
  obtain ⟨stack, control⟩ := context
  cases control with
  | resuming callee rest =>
      simp only [StackfulCoroutine.internalStep, here] at taken
      cases taken
      have named : Shaped (s.setCurrent w (some callee)) := shaped.still rfl rfl
      refine ⟨named.goto (by simp), ?_⟩
      simp [StackfulCoroutine.State.goto, load]
  | switching callee last rest =>
      simp only [StackfulCoroutine.internalStep, here] at taken
      cases taken
      have context := shaped.context callee
      refine ⟨.goto (.stored shaped ?_ ?_) ?_, ?_⟩
      · exact context
      · intro saved waits
        cases waits
        exact ⟨callee, last, rest, rfl⟩
      · intro rest' now
        rcases context with starting | ⟨k, code⟩
        · cases starting.symm.trans now
        · cases code.symm.trans now
      · rcases context with starting | ⟨k, code⟩
        · simp [StackfulCoroutine.State.goto, load, starting]
        · simp [StackfulCoroutine.State.goto, load, code]
  | switched callee last rest =>
      simp only [StackfulCoroutine.internalStep, here] at taken
      cases taken
      have named : Shaped (s.setCurrent w last) := shaped.still rfl rfl
      refine ⟨named.goto (by simp), ?_⟩
      simp [StackfulCoroutine.State.goto, load]
  | suspending rest =>
      simp only [StackfulCoroutine.internalStep, here] at taken
      obtain ⟨f, _, moved⟩ := Option.bind_eq_some_iff.mp taken
      obtain ⟨saved, back, rfl⟩ := Option.map_eq_some_iff.mp moved
      obtain ⟨k, rfl⟩ := shaped.suspending w rest (by rw [here])
      obtain ⟨callee, last, rest', waits⟩ := shaped.caller f saved back
      refine ⟨.goto (.stored shaped ?_ ?_) fun rest'' now => ?_, ?_⟩
      · exact .inr ⟨k, rfl⟩
      · exact shaped.caller f
      · cases waits.symm.trans now
      · simp [StackfulCoroutine.State.goto, load, waits]
  | starting =>
      simp only [StackfulCoroutine.internalStep, here] at taken
      obtain ⟨f, _, rfl⟩ := Option.map_eq_some_iff.mp taken
      obtain ⟨k, routine⟩ := starts f
      refine ⟨shaped.goto (by simp), ?_⟩
      simp [StackfulCoroutine.State.goto, load, routine]
  | caught e => exact e.elim
  | completing =>
      simp only [StackfulCoroutine.internalStep, here] at taken
      obtain ⟨f, _, rfl⟩ := Option.map_eq_some_iff.mp taken
      refine ⟨.goto (.stored shaped ?_ ?_) (by simp), ?_⟩
      · exact shaped.context f
      · exact shaped.caller f
      simp [StackfulCoroutine.State.goto, load]
  | exiting =>
      simp only [StackfulCoroutine.internalStep, here] at taken
      obtain ⟨f, _, moved⟩ := Option.bind_eq_some_iff.mp taken
      obtain ⟨saved, back, rfl⟩ := Option.map_eq_some_iff.mp moved
      obtain ⟨callee, last, rest, waits⟩ := shaped.caller f saved back
      refine ⟨shaped.goto fun rest' now => ?_, ?_⟩
      · cases waits.symm.trans now
      · simp [StackfulCoroutine.State.goto, load, waits]
  | _ => simp [StackfulCoroutine.internalStep, here] at taken

end Internal

section Statements
variable [DecidableEq Worker] [DecidableEq Fiber] [DecidableEq K]
variable {does : K → Action K → Bool} {f f' : Fibers.State Worker Fiber K} {w : Worker}
  {a : Abstract Worker Fiber K} {after : Runtime Worker Fiber} {price : ℕ}

def weight (f : Fibers.State Worker Fiber K) (w : Worker) : ℕ :=
  load (f.coroutines.running w).control

omit [DecidableEq Worker] [DecidableEq Fiber] [DecidableEq K] in
theorem weight_code {k : Code Fiber K} (here : f.code w = some k) :
    weight f w = load (.code k) := by
  rw [weight, code_eq_some here]

/-- A step of a worker is paid for by where it was, by the tasks, or by its price. -/
structure Spends (f f' : Fibers.State Worker Fiber K) (w : Worker) (price : ℕ) : Prop where
  shaped : Shaped f'.coroutines
  others : ∀ w', w' ≠ w → weight f' w' = weight f w'
  less : weight f' w + 51 * f'.runtime.tasks.length + 1 ≤
    weight f w + 51 * f.runtime.tasks.length + 56 * price

omit [DecidableEq Worker] in
theorem suspends_routine {payload : Fiber → K} {k rest : Code Fiber K}
    (may : (program does payload : Program Worker Fiber _ _).does k (.suspend rest) = true) :
    ∃ k', rest = .routine k' := by
  cases k <;> cases rest <;> simp [program] at may ⊢

theorem Spends.act (shaped : Shaped f.coroutines) {k : Code Fiber K} (here : f.code w = some k)
    {action : Asymmetric.Action Fiber (Code Fiber K) Empty}
    (taken : f.event does w (.act action) after = some f')
    (less : load (StackfulCoroutine.perform (program does f.payload) (f.stack w) k action) +
        51 * after.tasks.length + 1 ≤
      load (.code k) + 51 * f.runtime.tasks.length + 56 * price) : Spends f f' w price := by
  obtain ⟨coroutines, moved, rfl⟩ := Option.map_eq_some_iff.mp taken
  have elsewhere {w' : Worker} (other : w' ≠ w) := event_elsewhere moved other
  have control : (f.coroutines.running w).control = .code k := by rw [code_eq_some here]
  simp only [StackfulCoroutine.step, control] at moved
  obtain ⟨⟨_, may⟩, rfl⟩ := guarded_eq_some.mp moved
  have called : Shaped (f.coroutines.setCalls w ((Event.act action).callsAfter
      (f.coroutines.calls w))) := shaped.still rfl rfl
  refine ⟨called.goto fun rest suspends => ?_,
    fun w' other => by rw [weight, weight, elsewhere other], ?_⟩
  · cases action with
    | suspend rest' =>
        cases suspends
        exact suspends_routine may
    | throw e => exact e.elim
    | segment | resume => cases suspends
    | finish =>
        cases body : f.stack w with
        | thread | coroutine =>
            rw [body] at suspends
            cases suspends
  · rw [weight_code here]
    simpa [weight, StackfulCoroutine.State.goto] using less

theorem Spends.goto (shaped : Shaped f.coroutines) {k next : Code Fiber K}
    (here : f.code w = some k) (taken : f.goto does w next after = some f')
    (less : load (.code next : Control Fiber (Code Fiber K) Empty) + 51 * after.tasks.length + 1 ≤
      load (.code k) + 51 * f.runtime.tasks.length + 56 * price) : Spends f f' w price :=
  .act shaped here taken less

theorem Spends.own (shaped : Shaped f.coroutines) {k next : Code Fiber K}
    (here : f.code w = some k) (taken : f.goto does w next after = some f')
    (same : after.tasks.length = f.runtime.tasks.length)
    (less : load (.code next : Control Fiber (Code Fiber K) Empty) < load (.code k) + 56 * price) :
    Spends f f' w price := by
  refine .goto shaped here taken ?_
  rw [same]
  omega

theorem Spends.resumed (inv : Invariant does f a) (shaped : Shaped f.coroutines) {g : Fiber}
    (taken : f.event does w (.resumed g none) f.runtime = some f') : Spends f f' w 0 := by
  obtain ⟨there, _, due, advanced, _⟩ := inv.event (move_free _ rfl rfl _) taken
  obtain ⟨rest, waits, _⟩ := Program.advance_resumed.mp advanced
  obtain ⟨coroutines, moved, rfl⟩ := Option.map_eq_some_iff.mp taken
  have elsewhere {w' : Worker} (other : w' ≠ w) := event_elsewhere moved other
  cases control : (f.coroutines.running w).control with
  | checking c rest' =>
      have here : f.coroutines.running w = ⟨f.stack w, .checking c rest'⟩ := by
        rw [← control, Fibers.State.stack]
      obtain ⟨running, _, _, point, _⟩ := inv.related.at_checking here
      -- Resume was called by Dispatch.
      obtain ⟨h, rfl⟩ : ∃ h, rest' = .restore h none := by
        rw [← running.inControl, waits] at point
        cases inv.good.placed w with
        | code going _ _ =>
            rw [going] at due
            cases due
        | back ended inside _ =>
            rw [inside.control_back ended, inside.waits] at waits
            cases waits
            cases point
            exact ⟨_, rfl⟩
      simp only [StackfulCoroutine.step, control] at moved
      obtain ⟨_, rfl⟩ := guarded_eq_some.mp moved
      have left : Shaped (f.coroutines.setCalls w (f.coroutines.calls w).tail) :=
        shaped.still rfl rfl
      have lands (body : Body Worker Fiber) : StackfulCoroutine.land body
          ((program does f.payload : Program Worker Fiber _ _).afterResume (.restore h none) none) =
            .code (.restore h none) := by
        cases body <;> rfl
      have before : weight f w = 30 := by
        rw [weight, control]
        rfl
      refine ⟨left.goto fun _ now => ?_,
        fun w' other => by rw [weight, weight, elsewhere other], ?_⟩
      · rw [lands] at now
        cases now
      · rw [before, weight]
        simp only [StackfulCoroutine.State.goto, Function.update_self]
        rw [lands]
        simp only [load]
        omega
  | _ => simp [StackfulCoroutine.step, control] at moved

def paid : Statement Fiber K → ℕ
  | .segment _ | .yield _ | .spawn _ _ _ => 1
  | _ => 0

theorem Spends.spawn (shaped : Shaped f.coroutines) {g : Fiber} {k routine rest : K}
    {next : Fibers.State Worker Fiber K} (here : f.code w = some (.routine k))
    (moved : f.goto does w (.schedule g rest)
      ((f.runtime.acquireStack w g).setLife g (.built (some w))) = some next) :
    Spends f (next.construct g routine) w 1 := by
  have tasks : ((f.runtime.acquireStack w g).setLife g (.built (some w))).tasks =
      f.runtime.tasks := by
    change (f.runtime.acquireStack w g).tasks = _
    unfold Runtime.acquireStack
    split <;> rfl
  have spends : Spends f next w 1 := .own shaped here moved (by rw [tasks]) (by simp [load])
  exact ⟨spends.shaped.stored (.inl rfl) (by simp [StackfulCoroutine.constructed]),
    spends.others, spends.less⟩

theorem Spends.executes (shaped : Shaped f.coroutines) {statement : Statement Fiber K}
    {k : Code Fiber K} (here : f.code w = some k) (executes : Executes does f w statement k f') :
    Spends f f' w (paid statement) := by
  cases executes with
  | take pending moved =>
      have shorter := List.length_erase_of_mem pending
      have some := List.length_pos_of_mem pending
      refine .goto shaped here moved ?_
      simp only [Runtime.setTasks, Runtime.setExecutes, shorter, load]
      omega
  | enter moved => exact .own shaped here moved rfl (by simp [load, paid])
  | resume moved =>
      refine .act shaped here moved ?_
      simp only [StackfulCoroutine.perform, load]
      omega
  | restore moved => exact .own shaped here moved rfl (by simp [load, paid])
  | completed _ moved => exact .own shaped here moved rfl (by simp [load, paid])
  | yielded _ moved => exact .own shaped here moved rfl (by simp [load, paid])
  | release _ moved => exact .own shaped here moved rfl (by simp [load, paid])
  | delete moved => exact .own shaped here moved rfl (by simp [load, paid])
  | leave moved => exact .own shaped here moved (List.length_map _) (by simp [load, paid])
  | segment _ moved => exact .own shaped here moved rfl (by simp [load, paid])
  | spawn _ _ moved => exact .spawn shaped here moved
  | schedule moved =>
      refine .goto shaped here moved ?_
      simp only [load, Runtime.setLife, Runtime.submit, Runtime.setTasks, List.length_append,
        List.length_singleton]
      omega
  | yield _ _ moved =>
      refine .goto shaped here moved ?_
      simp only [load, paid, Runtime.submit, Runtime.setTasks, List.length_append,
        List.length_singleton]
      omega
  | suspend moved =>
      refine .act shaped here moved ?_
      simp only [StackfulCoroutine.perform, load]
      omega
  | finish mine moved =>
      refine .act shaped here moved ?_
      rw [mine]
      simp only [StackfulCoroutine.perform, StackfulCoroutine.land, load]
      omega

def labelPaid : Fibers.Label Worker Fiber K → ℕ
  | .statement _ executed => paid executed
  | _ => 0

theorem Spends.step (inv : Invariant does f a) (shaped : Shaped f.coroutines)
    {label : Fibers.Label Worker Fiber K} (taken : Fibers.step does f label = some f')
    (mine : (Label.fibers label).worker? = some w) : Spends f f' w (labelPaid label) := by
  cases label with
  | internal w' =>
      cases mine
      obtain ⟨coroutines, moved, rfl⟩ := Option.map_eq_some_iff.mp taken
      obtain ⟨still, less⟩ := shaped.internal (fun g => ⟨f.payload g, rfl⟩) moved
      refine ⟨still, fun w' other => ?_, ?_⟩
      · rw [weight, weight, internal_elsewhere moved other]
      · simp only [weight, labelPaid]
        omega
  | statement w' executed =>
      cases mine
      rcases statement_executes taken with ⟨g, rfl, moved⟩ | ⟨k, here, executes⟩
      · exact .resumed inv shaped moved
      · exact .executes shaped here executes
  | outsideSpawn | outsideSubmit => cases mine

theorem reaches_shaped {payload : Fiber → K} {trace : List (Fibers.Label Worker Fiber K)}
    (run : Reaches (Fibers.step does) unrestricted (Fibers.init does payload) trace f) :
    Shaped f.coroutines := by
  induction run with
  | start =>
      refine ⟨fun _ => .inl rfl, fun _ _ waits => ?_, fun _ _ suspends => ?_⟩
      · cases waits
      · cases suspends
  | next label before _ taken ih =>
      obtain ⟨a, inv, _⟩ := reaches_invariant before
      cases mine : (Label.fibers label).worker? with
      | some w => exact (Spends.step inv ih taken mine).shaped
      | none =>
          cases label with
          | internal | statement => cases mine
          | outsideSpawn f routine =>
              simp only [Fibers.step] at taken
              split at taken
              · cases taken
                exact ih.stored (.inl rfl) (by simp [StackfulCoroutine.constructed])
              · cases taken
          | outsideSubmit f =>
              simp only [Fibers.step] at taken
              split at taken
              · cases taken
                exact ih.still rfl rfl
              · cases taken

/-- The routines are worth the steps that they and those they spawn still take. -/
def Left (does : K → Action K → Bool) (worth : K → ℕ) (f : Fibers.State Worker Fiber K)
    (left : ℕ) : Prop :=
  ∃ a living, Invariant does f a ∧ Processes.Accounts worth (process f.runtime a) living left

variable {worth : K → ℕ}

theorem paid_shown (inv : Invariant does f a) {label : Fibers.Label Worker Fiber K}
    (taken : Fibers.step does f label = some f') :
    labelPaid label = ((shown f label).map Processes.Label.price).getD 0 := by
  cases label with
  | statement w executed =>
      cases executed with
      | segment | yield | spawn =>
          obtain ⟨k, here, moved⟩ := Option.bind_eq_some_iff.mp taken
          cases k with
          | routine k =>
              obtain ⟨g, stack, _⟩ := inv.at_routine here
              simp [labelPaid, paid, shown, stack, Asymmetric.Body.coroutine?,
                Processes.Label.price]
          | _ => cases moved
      | _ => rfl
  | _ => rfl

theorem Left.step (bounded : Processes.Bounded (behaviour does) worth) {left : ℕ}
    (have_left : Left does worth f left) {label : Fibers.Label Worker Fiber K}
    (taken : Fibers.step does f label = some f')
    (mine : (Label.fibers label).worker? = some w) :
    ∃ left', Left does worth f' left' ∧ left' + labelPaid label ≤ left := by
  obtain ⟨a, living, inv, accounts⟩ := have_left
  have price := paid_shown inv taken
  obtain ⟨a', inv', ⟨hidden, still⟩ | ⟨visible, seen, moved⟩⟩ := inv.proceeds taken
  · refine ⟨left, ⟨a', living, inv', still ▸ accounts⟩, ?_⟩
    rw [price, hidden]
    exact le_refl left
  · obtain ⟨living', left', accounts', moved⟩ := Processes.accounts_moved accounts moved
    refine ⟨left', ⟨a', living', inv', accounts'⟩, ?_⟩
    have own : visible.isOwn = true := by
      cases label with
      | outsideSpawn | outsideSubmit => cases mine
      | internal => cases seen
      | statement w' executed =>
          cases executed with
          | segment | yield | spawn =>
              obtain ⟨_, _, rfl⟩ := Option.map_eq_some_iff.mp seen
              rfl
          | finish =>
              cases seen
              rfl
          | _ => cases seen
    rw [price, seen]
    exact moved.bounded bounded own

end Statements

section Rank
variable [DecidableEq Worker] [DecidableEq Fiber] [DecidableEq K] [Fintype Worker]
variable {does : K → Action K → Bool} {payload : Fiber → K} {workers : List Worker}
  {worth : K → ℕ} {s s' : State Worker Fiber K} {f f' : Fibers.State Worker Fiber K} {w : Worker}
  {trace : List (Label Worker Fiber K)}

def effort (f : Fibers.State Worker Fiber K) (left : ℕ) : ℕ :=
  56 * left + 51 * f.runtime.tasks.length + ∑ w, weight f w

omit [DecidableEq Fiber] [DecidableEq K] in
theorem effort_less {price left left' : ℕ} (spends : Spends f f' w price)
    (pays : left' + price ≤ left) : effort f' left' < effort f left := by
  have moved := Headcount.sum_moved spends.others
  have less := spends.less
  unfold effort
  omega

def Owner.distance (workers : List Worker) : Owner Worker → ℕ
  | outside => 0
  | resetting => workers.length + 2
  | joining rest => rest.length + 1

def running (s : State Worker Fiber K) : Finset Worker :=
  Finset.univ.filter fun w => s.returned w = false

/-- The number of steps that the pool and its fibers can still take, at most. -/
def Ranked (does : K → Action K → Bool) (worth : K → ℕ) (workers : List Worker)
    (s : State Worker Fiber K) (rank : ℕ) : Prop :=
  ∃ left, Left does worth s.fibers left ∧ Shaped s.fibers.coroutines ∧
    effort s.fibers left + s.owner.distance workers + (!s.stopped).toNat + (running s).card = rank

theorem Ranked.lowers (bounded : Processes.Bounded (behaviour does) worth) {rank : ℕ}
    (ranked : Ranked does worth workers s rank) {label : Label Worker Fiber K}
    (inside : label.inside = true) (taken : step does workers s label = some s') :
    ∃ lower < rank, Ranked does worth workers s' lower := by
  obtain ⟨left, have_left, shaped, rfl⟩ := ranked
  cases label with
  | fibers label =>
      obtain ⟨_, fibers, moved, rfl⟩ := fibers_step.mp taken
      obtain ⟨w, mine⟩ : ∃ w, (Label.fibers label).worker? = some w := by
        cases label with
        | internal w | statement w => exact ⟨w, rfl⟩
        | outsideSpawn | outsideSubmit => cases inside
      obtain ⟨left', still, pays⟩ := have_left.step bounded moved mine
      obtain ⟨a, _, inv, _⟩ := have_left
      have spends := Spends.step inv shaped moved mine
      have less := effort_less spends pays
      refine ⟨_, ?_, left', still, spends.shaped, rfl⟩
      change effort fibers left' + s.owner.distance workers + (!s.stopped).toNat +
        (running s).card < _
      omega
  | stop =>
      obtain ⟨⟨open', _⟩, rfl⟩ := guarded_eq_some.mp taken
      refine ⟨_, ?_, left, have_left, shaped, rfl⟩
      simp [open', running]
  | runReturns w =>
      obtain ⟨⟨_, _, inside⟩, rfl⟩ := guarded_eq_some.mp taken
      refine ⟨_, ?_, left, have_left, shaped, rfl⟩
      have fewer : running { s with returned := Function.update s.returned w true } =
          (running s).erase w := by
        ext w'
        by_cases same : w' = w <;> simp [running, same]
      have less := Finset.card_erase_lt_of_mem (s := running s) (a := w) (by simp [running, inside])
      rw [fewer]
      exact Nat.add_lt_add_left less _
  | join => cases inside
  | reset =>
      obtain ⟨here, rfl⟩ := reset_step.mp taken
      refine ⟨_, ?_, left, have_left, shaped, rfl⟩
      simp [here, Owner.distance, running]
  | joinWorker =>
      obtain ⟨w, rest, here, _, rfl⟩ := joinWorker_step.mp taken
      refine ⟨_, ?_, left, have_left, shaped, rfl⟩
      simp [here, Owner.distance, running]
  | markJoined =>
      obtain ⟨here, rfl⟩ := markJoined_step.mp taken
      refine ⟨_, ?_, left, have_left, shaped, rfl⟩
      simp [here, Owner.distance, running]

theorem left_joined {later : List (Label Worker Fiber K)} (called : s.owner ≠ .outside)
    (run : Reaches (step does workers) (fun _ label => label.inside = true) s later s') :
    s'.owner = .outside → s'.joined = true := by
  induction run with
  | start => exact fun outside => absurd outside called
  | next label _ inside taken joined =>
      cases label with
      | fibers label =>
          obtain ⟨_, fibers, _, rfl⟩ := fibers_step.mp taken
          exact joined
      | stop | runReturns =>
          obtain ⟨_, rfl⟩ := guarded_eq_some.mp taken
          exact joined
      | join => cases inside
      | reset =>
          obtain ⟨_, rfl⟩ := reset_step.mp taken
          exact fun outside => (by cases outside)
      | joinWorker =>
          obtain ⟨_, _, _, _, rfl⟩ := joinWorker_step.mp taken
          exact fun outside => (by cases outside)
      | markJoined =>
          obtain ⟨_, rfl⟩ := markJoined_step.mp taken
          exact fun _ => rfl

/-- Join returns. Let every point of a routine have a next statement, and let each routine
be worth more than what is left of it and of those it spawns. Once Join is called, and as
long as nobody outside spawns or submits a fiber, the pool makes a bounded number of steps
however the workers take turns, and it is not stuck before Join has returned. Fibers are
always to be had (`Infinite`). -/
theorem join_returns [Infinite Fiber] (live : ∀ k, ∃ action, does k action = true)
    (bounded : Processes.Bounded (behaviour does) worth)
    (run : Reaches (step does workers) unrestricted (init does payload) trace s)
    (called : s.owner ≠ .outside) :
    ∃ bound, ∀ later s',
      Reaches (step does workers) (fun _ label => label.inside = true) s later s' →
        later.length ≤ bound ∧
          (Advances does workers s' ∨ s'.owner = .outside ∧ s'.joined = true) := by
  have fibers := reaches_fibers run
  obtain ⟨a, inv, processes⟩ := reaches_processes fibers
  obtain ⟨living, left, accounts⟩ := Processes.reaches_accounts worth processes
  obtain ⟨bound, ranked⟩ : ∃ bound, Ranked does worth workers s bound :=
    ⟨_, left, ⟨a, living, inv, accounts⟩, reaches_shaped fibers, rfl⟩
  refine ⟨bound, fun later s' goes => ⟨?_, ?_⟩⟩
  · exact goes.length_le ranked fun s label after above ranked inside taken =>
      ranked.lowers bounded inside taken
  · by_cases returned : s'.owner = .outside
    · exact .inr ⟨returned, left_joined called goes returned⟩
    · exact .inl (never_stuck live (run.append goes.free) returned)

end Rank

section Forks

theorem forkers_live (k : Forker) : ∃ action, forkers k action = true := by
  cases k with
  | enter d =>
      by_cases small : d ≤ 2
      · exact ⟨.segment .counted, by simp [forkers, small]⟩
      · exact ⟨.spawn (.enter (d - 2)) (.second d), by simp [forkers]; omega⟩
  | second d => exact ⟨.spawn (.enter (d - 1)) .last, by simp [forkers]⟩
  | counted | last => exact ⟨.finish, rfl⟩

def Forker.length : Forker → ℕ
  | enter d => 3 * leaves d - 2
  | second d => 3 * leaves (d - 1) - 1
  | counted | last => 0

theorem leaves_positive (d : ℕ) : 0 < leaves d := by
  unfold leaves
  split
  · exact Nat.one_pos
  · exact Nat.fib_pos.mpr (by omega)

theorem forkers_bounded : Processes.Bounded (behaviour forkers) Forker.length where
  step k rest may := by
    cases k with
    | enter d =>
        cases rest <;> simp [behaviour, forkers] at may
        simp [Forker.length, leaves, may]
    | _ => simp [behaviour, forkers] at may
  start k routine rest may := by
    cases k with
    | enter d =>
        cases routine <;> cases rest <;> simp [behaviour, forkers] at may
        obtain ⟨big, child, rest⟩ := may
        have first := leaves_positive (d - 1)
        have second := leaves_positive (d - 2)
        simp only [Forker.length, child, rest, leaves_below big]
        omega
    | second d =>
        cases routine <;> cases rest <;> simp [behaviour, forkers] at may
        subst may
        have first := leaves_positive (d - 1)
        simp only [Forker.length]
        omega
    | _ => simp [behaviour, forkers] at may

/-- `Explode(3)` on two workers: Join has just been called. -/
theorem join_returns_explode : ∃ (s : State Bool ℕ Forker) (bound : ℕ),
    run (step forkers [false, true]) (init forkers fun _ => .last)
      [.fibers (.outsideSpawn 0 (.enter 3)), .fibers (.outsideSubmit 0), .join] = some s ∧
    ∀ later s',
      Reaches (step forkers [false, true]) (fun _ label => label.inside = true) s later s' →
        later.length ≤ bound ∧
          (Advances forkers [false, true] s' ∨ s'.owner = .outside ∧ s'.joined = true) := by
  have ran : run (step forkers [false, true]) (init forkers fun _ : ℕ => .last)
      [.fibers (.outsideSpawn 0 (.enter 3)), .fibers (.outsideSubmit 0), .join] = some _ := rfl
  obtain ⟨bound, returns⟩ := join_returns forkers_live forkers_bounded (run_free ran) (by simp)
  exact ⟨_, bound, ran, returns⟩

end Forks
end ConcurrencyCourse.FiberPool
