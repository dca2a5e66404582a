import ConcurrencyCourse.FiberPlaces
import ConcurrencyCourse.FiberStacks

/-!
Each fiber has exactly one future. The steps of the fibers are events of the
coroutine machine, so what holds of every place holds in every run; what a run says
of a fiber is said at most once, and the runtime shows that it was said.
-/

namespace ConcurrencyCourse.Fibers

open Interleaving Asymmetric

variable {Worker Fiber K : Type*}

def Life.isBorn : Life Worker → Bool
  | .unborn => false
  | _ => true

def Life.isSubmitted : Life Worker → Bool
  | .scheduled | .destroyed => true
  | _ => false

def Life.isDestroyed : Life Worker → Bool
  | .destroyed => true
  | _ => false

theorem Life.scheduled_of {life : Life Worker} (submitted : life.isSubmitted = true)
    (alive : life.isDestroyed ≠ true) : life = .scheduled := by
  cases life with
  | scheduled => rfl
  | destroyed => exact absurd rfl alive
  | _ => cases submitted

theorem Life.unborn_of {life : Life Worker} (fresh : life.isBorn = false) : life = .unborn := by
  cases life with
  | unborn => rfl
  | _ => cases fresh

theorem Life.destroyed_of {life : Life Worker} (gone : life.isDestroyed = true) :
    life = .destroyed := by
  cases life with
  | destroyed => rfl
  | _ => cases gone

/-- Whether the runtime and the coroutines show what a mark says of a fiber. -/
def shows (r : Runtime Worker Fiber) (a : Abstract Worker Fiber K) : Mark × Fiber → Bool
  | (.submitted, f) => (r.life f).isSubmitted
  | (.finished, f) => (a.position (.coroutine f)).isOver
  | (.released, f) => (r.life f).isBorn && (r.fiberStack f).isNone
  | (.destroyed, f) => (r.life f).isDestroyed

/-- A step makes one mark, for the first time, or none. -/
structure Marks (r r' : Runtime Worker Fiber) (a a' : Abstract Worker Fiber K)
    (mark : Option (Mark × Fiber)) : Prop where
  kept : ∀ m, mark ≠ some m → shows r' a' m = shows r a m
  made : ∀ m, mark = some m → shows r a m = false ∧ shows r' a' m = true

theorem Marks.none {r r' : Runtime Worker Fiber} {a a' : Abstract Worker Fiber K}
    (kept : ∀ m, shows r' a' m = shows r a m) : Marks r r' a a' none :=
  ⟨fun m _ => kept m, fun _ made => by cases made⟩

theorem Marks.trans {r₁ r₂ r₃ : Runtime Worker Fiber} {a₁ a₂ a₃ : Abstract Worker Fiber K}
    {mark : Option (Mark × Fiber)} (first : Marks r₁ r₂ a₁ a₂ mark)
    (quiet : Marks r₂ r₃ a₂ a₃ .none) : Marks r₁ r₃ a₁ a₃ mark where
  kept m other := (quiet.kept m (by simp)).trans (first.kept m other)
  made m made := ⟨(first.made m made).1, (quiet.kept m (by simp)).trans (first.made m made).2⟩

def Runtime.Pending [DecidableEq Fiber] (r : Runtime Worker Fiber) (f : Fiber) : Prop :=
  r.tasks.countP (fun task => task.fiber = f) = 1 ∧ ∀ w, r.executes w ≠ some f

/-- One worker dispatches the fiber, and no task of it is available before that
worker's task has returned. -/
def Runtime.Dispatched (r : Runtime Worker Fiber) (f : Fiber) : Prop :=
  ∃ w, (∀ w', r.executes w' = some f ↔ w' = w) ∧
    ∀ task ∈ r.tasks, task.fiber = f → task.after = some w

/-- What a run has said of the fibers, and the state that it leaves. -/
structure Settled [DecidableEq Fiber] (said : List (Mark × Fiber)) (s : State Worker Fiber K) :
    Prop where
  future : ∀ f, (.submitted, f) ∈ said → (.destroyed, f) ∉ said →
    s.runtime.Pending f ∨ s.runtime.Dispatched f
  once : ∀ m, said.count m ≤ 1
  gone : ∀ f, (.destroyed, f) ∈ said → (.finished, f) ∈ said ∧ (.released, f) ∈ said ∧
    (∀ task ∈ s.runtime.tasks, task.fiber ≠ f) ∧ ∀ w, s.runtime.executes w ≠ some f
  current : ∀ w f, s.stack w = .coroutine f →
    s.runtime.currentFiber w = some f ∧ s.runtime.executes w = some f
  quiescent : s.runtime.tasks = [] → (∀ w, s.code w = some .idle) →
    ∀ f, (.submitted, f) ∈ said → (.destroyed, f) ∈ said

/-- Where the stacks are. From its construction to its release a fiber has one, and each
stack has one owner, a fiber or a slot in the pool of a worker. -/
structure Stacked (said : List (Mark × Fiber)) (r : Runtime Worker Fiber) : Prop where
  owner : ∀ stack, stack < r.allocated → r.OneOwner stack
  held : ∀ f, r.life f ≠ .unborn → (.released, f) ∉ said →
    ∃ stack, stack < r.allocated ∧ r.fiberStack f = some stack
  gone : ∀ f, (.released, f) ∈ said → r.fiberStack f = none

section Futures
variable {r : Runtime Worker Fiber} {a : Abstract Worker Fiber K} {f : Fiber}

theorem Good.pending [DecidableEq Fiber] (good : Good r a) {task : Task Worker Fiber}
    (inside : task ∈ r.tasks) (idle : ∀ w, r.executes w ≠ some task.fiber) :
    r.Pending task.fiber := by
  refine ⟨?_, idle⟩
  have fibers : r.tasks.countP (fun other => other.fiber = task.fiber) =
      (r.tasks.map Task.fiber).count task.fiber := by
    simp [List.count, List.countP_map, Function.comp_def, beq_eq_decide]
  rw [fibers]
  exact List.count_eq_one_of_mem good.nodup (List.mem_map_of_mem inside)

theorem Good.dispatched (good : Good r a) {w : Worker} (executes : r.executes w = some f) :
    r.Dispatched f :=
  ⟨w, fun _ => ⟨fun now => good.unique _ _ _ now executes, fun same => same ▸ executes⟩,
    fun task inside same => good.held task inside w (same ▸ executes)⟩

theorem Good.future [DecidableEq Fiber] (good : Good r a) (scheduled : r.life f = .scheduled) :
    r.Pending f ∨ r.Dispatched f := by
  by_cases idle : ∀ w, r.executes w ≠ some f
  · rcases good.covered f scheduled with ⟨task, inside, rfl⟩ | ⟨w, executes⟩
    · exact .inl (good.pending inside idle)
    · exact absurd executes (idle w)
  · obtain ⟨w, executes⟩ := not_forall_not.mp idle
    exact .inr (good.dispatched executes)

theorem mem_history [DecidableEq Fiber] {said : List (Mark × Fiber)}
    (recorded : ∀ m, said.count m = (shows r a m).toNat) (m : Mark × Fiber) :
    m ∈ said ↔ shows r a m = true := by
  rw [← List.count_pos_iff, recorded]
  cases shows r a m <;> simp

end Futures

section Marked
variable {r r' : Runtime Worker Fiber} {a a' : Abstract Worker Fiber K} {w : Worker} {f : Fiber}

theorem Marks.quiet (life : r'.life = r.life) (stack : r'.fiberStack = r.fiberStack)
    (fibers : ∀ f, (a'.position (.coroutine f)).isOver = (a.position (.coroutine f)).isOver) :
    Marks r r' a a' Option.none := by
  refine .none fun m => ?_
  obtain ⟨mark, f⟩ := m
  cases mark <;> simp only [shows, life, stack, fibers]

variable [DecidableEq Fiber]

theorem Marks.born {g : Fiber} {builder : Option Worker} (unborn : r.life g = .unborn)
    (born : Born r r' g builder)
    (fibers : ∀ f, (a'.position (.coroutine f)).isOver = (a.position (.coroutine f)).isOver) :
    Marks r r' a a' Option.none := by
  refine .none fun m => ?_
  obtain ⟨mark, f⟩ := m
  by_cases same : f = g
  · subst same
    have built : r'.life f = .built builder := by rw [born.life, Function.update_self]
    cases mark <;> simp [shows, unborn, built, born.owned, fibers, Life.isBorn, Life.isSubmitted,
      Life.isDestroyed]
  · have still : r'.life f = r.life f := by rw [born.life, Function.update_of_ne same]
    cases mark <;> simp [shows, still, born.stack f same, fibers]

theorem Marks.scheduled {g : Fiber} {builder : Option Worker} (built : r.life g = .built builder)
    (fibers : ∀ f, (a'.position (.coroutine f)).isOver = (a.position (.coroutine f)).isOver) :
    Marks r ((r.submit g Option.none).setLife g .scheduled) a a' (some (.submitted, g)) := by
  refine ⟨fun m other => ?_, fun m made => ?_⟩
  · obtain ⟨mark, f⟩ := m
    by_cases same : f = g
    · subst same
      cases mark with
      | submitted => exact absurd rfl other
      | finished => exact fibers f
      | released =>
          simp [shows, Runtime.setLife, Runtime.submit, Runtime.setTasks, built, Life.isBorn]
      | destroyed => simp [shows, Runtime.setLife, built, Life.isDestroyed]
    · cases mark <;>
        simp [shows, Runtime.setLife, Runtime.submit, Runtime.setTasks, same, fibers]
  · cases made
    exact ⟨by simp [shows, built, Life.isSubmitted],
      by simp [shows, Runtime.setLife, Life.isSubmitted]⟩

variable [DecidableEq Worker]

theorem Marks.deleted (scheduled : r.life f = .scheduled)
    (fibers : ∀ f, (a'.position (.coroutine f)).isOver = (a.position (.coroutine f)).isOver) :
    Marks r ((r.setLife f .destroyed).setExecutes w Option.none) a a' (some (.destroyed, f)) := by
  refine ⟨fun m other => ?_, fun m made => ?_⟩
  · obtain ⟨mark, g⟩ := m
    by_cases same : g = f
    · subst same
      cases mark with
      | submitted => simp [shows, Runtime.setLife, Runtime.setExecutes, scheduled, Life.isSubmitted]
      | finished => exact fibers g
      | released => simp [shows, Runtime.setLife, Runtime.setExecutes, scheduled, Life.isBorn]
      | destroyed => exact absurd rfl other
    · cases mark <;> simp [shows, Runtime.setLife, Runtime.setExecutes, same, fibers]
  · cases made
    exact ⟨by simp [shows, scheduled, Life.isDestroyed],
      by simp [shows, Runtime.setLife, Runtime.setExecutes, Life.isDestroyed]⟩

theorem Marks.releasedStack (scheduled : r.life f = .scheduled) {stack : ℕ}
    (owned : r.fiberStack f = some stack)
    (fibers : ∀ f, (a'.position (.coroutine f)).isOver = (a.position (.coroutine f)).isOver) :
    Marks r (r.releaseStack w f stack) a a' (some (.released, f)) := by
  refine ⟨fun m other => ?_, fun m made => ?_⟩
  · obtain ⟨mark, g⟩ := m
    cases mark with
    | submitted => rfl
    | finished => exact fibers g
    | released =>
        have different : g ≠ f := fun same => other (same ▸ rfl)
        simp [shows, Runtime.releaseStack, different]
    | destroyed => rfl
  · cases made
    exact ⟨by simp [shows, owned], by simp [shows, Runtime.releaseStack, scheduled, Life.isBorn]⟩

variable {e : Event Fiber (Code Fiber K) Empty}
  {there : Position Fiber (Code Fiber K) Empty}

theorem over_after (before : (a.position (a.inControl w)).isOver = false)
    (next : there.isOver = false) (f : Fiber) :
    ((a.after w e there).position (.coroutine f)).isOver = (a.position (.coroutine f)).isOver := by
  by_cases own : a.inControl w = .coroutine f
  · rw [after_own own, ← own, before, next]
  · rw [after_other own]

theorem Marks.finish (own : a.inControl w = .coroutine f)
    (before : (a.position (a.inControl w)).isOver = false) :
    Marks r r a (a.after w (.act .finish) .finished) (some (.finished, f)) := by
  refine ⟨fun m other => ?_, fun m made => ?_⟩
  · obtain ⟨mark, g⟩ := m
    cases mark with
    | finished =>
        have different : a.inControl w ≠ .coroutine g := by
          rw [own]
          intro same
          cases same
          exact other rfl
        simp [shows, after_other different]
    | _ => rfl
  · cases made
    exact ⟨by simpa [shows, own] using before, by simp [shows, after_own own, Position.isOver]⟩

end Marked

theorem code_eq_some {s : State Worker Fiber K} {w : Worker} {k : Code Fiber K}
    (here : s.code w = some k) : s.coroutines.running w = ⟨s.stack w, .code k⟩ := by
  unfold State.code at here
  unfold State.stack
  generalize s.coroutines.running w = context at here
  obtain ⟨stack, control⟩ := context
  cases control with
  | code k' =>
      cases here
      rfl
  | _ => cases here

theorem move_free {s : State Worker Fiber K} {w : Worker} (e : Event Fiber (Code Fiber K) Empty)
    (suspends : e.suspends = false) (resumes : e.resumes = none) (body : Body Worker Fiber) :
    StackfulCoroutine.allowed s.coroutines (.event ⟨w, body, e⟩) :=
  ⟨fun yes => absurd (suspends.symm.trans yes) (by simp),
    fun _ called => absurd (resumes.symm.trans called) (by simp)⟩

section Events
variable [DecidableEq Fiber] [DecidableEq K]
variable {does : K → Action K → Bool} {s s' : State Worker Fiber K}
  {a : Abstract Worker Fiber K} {w : Worker} {after : Runtime Worker Fiber}

structure Invariant (does : K → Action K → Bool) (s : State Worker Fiber K)
    (a : Abstract Worker Fiber K) : Prop where
  related : StackfulCoroutine.Related (program does s.payload) s.coroutines a
  good : Good s.runtime a

def Advances (does : K → Action K → Bool) (s : State Worker Fiber K) (a : Abstract Worker Fiber K)
    (s' : State Worker Fiber K) (mark : Option (Mark × Fiber)) : Prop :=
  ∃ a', Invariant does s' a' ∧ Marks s.runtime s'.runtime a a' mark

theorem Invariant.code_here (inv : Invariant does s a) {k : Code Fiber K}
    (here : s.code w = some k) :
    a.ended w = none ∧ s.stack w = a.inControl w ∧ a.position (a.inControl w) = .code k ∧
      Here s.runtime a w k := by
  obtain ⟨running, going, point⟩ := inv.related.at_code (code_eq_some here)
  rw [← running.inControl] at point
  cases inv.good.placed w with
  | code _ point' here' =>
      cases point.symm.trans point'
      exact ⟨going, running.inControl.symm, point, here'⟩
  | back ended _ _ =>
      rw [going] at ended
      cases ended

theorem Invariant.outsideSubmit (inv : Invariant does s a) {f : Fiber}
    (built : s.runtime.life f = .built none) :
    Advances does s a { s with
      runtime := (s.runtime.submit f none).setLife f .scheduled } (some (.submitted, f)) := by
  have good := inv.good.scheduled built
    (fun w => (inv.good.placed w).kept ⟨inv.good.spared_scheduled built (by simp), rfl, rfl, rfl,
      fun _ _ => rfl⟩) fun _ _ => rfl
  exact ⟨a, ⟨inv.related, good⟩, .scheduled built fun _ => rfl⟩

theorem init_invariant (does : K → Action K → Bool) (payload : Fiber → K) :
    Invariant does (init does payload : State Worker Fiber K)
      (Asymmetric.init (program does payload)) where
  related := StackfulCoroutine.init_related _
  good :=
    { placed := fun w => .code rfl rfl ⟨rfl, rfl, rfl, fun _ none => absurd none List.not_mem_nil⟩
      nodup := List.nodup_nil
      live := fun _ none => absurd none List.not_mem_nil
      held := fun _ none => absurd none List.not_mem_nil
      executing := fun _ _ executes => by cases executes
      unique := fun _ _ _ executes => by cases executes
      covered := fun _ scheduled => by cases scheduled
      rested := fun f _ _ => ⟨payload f, rfl⟩
      released := fun _ destroyed => by cases destroyed }

theorem Invariant.settled (inv : Invariant does s a) {said : List (Mark × Fiber)}
    (recorded : ∀ m, said.count m = (shows s.runtime a m).toNat) : Settled said s := by
  have good := inv.good
  have future (f : Fiber) (submitted : (.submitted, f) ∈ said) (alive : (.destroyed, f) ∉ said) :
      s.runtime.Pending f ∨ s.runtime.Dispatched f := by
    rw [mem_history recorded] at submitted alive
    exact good.future (Life.scheduled_of submitted alive)
  refine ⟨future, fun m => ?_, fun f gone => ?_, fun w f here => ?_,
    fun none idle f submitted => ?_⟩
  · rw [recorded]
    exact Bool.toNat_le _
  · have destroyed := Life.destroyed_of ((mem_history recorded _).mp gone)
    obtain ⟨stack, finished⟩ := good.released f destroyed
    obtain ⟨absent, unexecuted⟩ := good.unscheduled (g := f) (by simp [destroyed])
    refine ⟨(mem_history recorded _).mpr ?_, (mem_history recorded _).mpr ?_, absent, unexecuted⟩
    · simp [shows, finished, Position.isOver]
    · simp [shows, destroyed, stack, Life.isBorn]
  · have called := inv.related.on_stack here
    exact ⟨(good.called called).current, (good.called called).executes⟩
  · by_contra alive
    rcases future f submitted alive with ⟨one, _⟩ | ⟨w, holder, _⟩
    · rw [none] at one
      cases one
    · -- A worker in io_context::run executes no fiber.
      obtain ⟨_, _, _, _, _, unexecuted, _⟩ := inv.code_here (idle w)
      cases unexecuted.symm.trans ((holder w).mpr rfl)

variable [DecidableEq Worker]

theorem Invariant.event (inv : Invariant does s a) {e : Event Fiber (Code Fiber K) Empty}
    (admitted : StackfulCoroutine.allowed s.coroutines (.event ⟨w, s.stack w, e⟩))
    (taken : s.event does w e after = some s') :
    ∃ there, s'.runtime = after ∧ e.due = a.ended w ∧
      (program does s.payload : Program Worker Fiber _ _).advance (a.position (a.inControl w)) e =
        some there ∧
      StackfulCoroutine.Related (program does s'.payload) s'.coroutines (a.after w e there) := by
  obtain ⟨coroutines, moved, rfl⟩ := Option.map_eq_some_iff.mp taken
  obtain ⟨a', _, stepped, still⟩ := inv.related.event admitted moved
  obtain ⟨_, due, there, advanced, rfl⟩ := step_eq_some.mp stepped
  exact ⟨there, rfl, due, advanced, still⟩

theorem Invariant.goto (inv : Invariant does s a) {k : Code Fiber K}
    (taken : s.goto does w k after = some s')
    (good : Good after (a.after w (.act (.segment k)) (.code k)))
    {mark : Option (Mark × Fiber)}
    (marks : (∀ f, ((a.after w (.act (.segment k)) (.code k)).position (.coroutine f)).isOver =
      (a.position (.coroutine f)).isOver) →
      Marks s.runtime after a (a.after w (.act (.segment k)) (.code k)) mark) :
    Advances does s a s' mark := by
  obtain ⟨there, effect, _, advanced, still⟩ := inv.event (move_free _ rfl rfl _) taken
  obtain ⟨_, point, _, rfl⟩ := Program.advance_act.mp advanced
  subst effect
  exact ⟨_, ⟨still, good⟩, marks (over_after (point ▸ rfl) rfl)⟩

theorem Invariant.acts (inv : Invariant does s a)
    {action : Asymmetric.Action Fiber (Code Fiber K) Empty}
    (admitted : StackfulCoroutine.allowed s.coroutines (.event ⟨w, s.stack w, .act action⟩))
    (taken : s.event does w (.act action) s.runtime = some s') {k : Code Fiber K}
    (point : a.position (a.inControl w) = .code k)
    {there : Position Fiber (Code Fiber K) Empty}
    (leads : (program does s.payload : Program Worker Fiber _ _).afterAct k action = there)
    (good : Good s.runtime (a.after w (.act action) there)) {mark : Option (Mark × Fiber)}
    (marks : Marks s.runtime s.runtime a (a.after w (.act action) there) mark) :
    Advances does s a s' mark := by
  obtain ⟨there', effect, _, advanced, still⟩ := inv.event admitted taken
  obtain ⟨k', point', _, rfl⟩ := Program.advance_act.mp advanced
  cases point.symm.trans point'
  rw [leads] at still
  rw [Advances, effect]
  exact ⟨_, ⟨still, effect ▸ good⟩, marks⟩

-- One lemma for each statement: its guard, its place, its mark.

omit [DecidableEq Worker] in
theorem Invariant.resume_admitted (inv : Invariant does s a) {f : Fiber} {prev : Option Fiber}
    (here : s.code w = some (.resume f prev)) :
    StackfulCoroutine.allowed s.coroutines
      (.event ⟨w, s.stack w, .act (.resume f (.restore f prev))⟩) := by
  obtain ⟨_, _, _, _, calls, _, executes, _, k, resumable⟩ := inv.code_here here
  -- The task of the fiber was taken, so no other worker resumes it.
  have free : ∀ w', f ∉ a.calls w' := inv.good.outside executes calls
  have unfinished : (s.coroutines.coroutine f).isCompleted = false := by
    rw [(inv.related.idle f free).completed, resumable]
    rfl
  refine ⟨fun suspends => absurd suspends (by simp [Event.suspends]), fun callee called => ?_⟩
  cases called
  rw [inv.related.calls]
  exact ⟨unfinished, free⟩

theorem Invariant.resume (inv : Invariant does s a) {f : Fiber} {prev : Option Fiber}
    (here : s.code w = some (.resume f prev))
    (taken : s.event does w (.act (.resume f (.restore f prev))) s.runtime = some s') :
    Advances does s a s' none := by
  obtain ⟨going, _, point, place⟩ := inv.code_here here
  exact inv.acts (inv.resume_admitted here) taken point rfl (inv.good.resume going place)
    (.quiet rfl rfl (over_after (point ▸ rfl) rfl))

omit [DecidableEq Worker] in
theorem Invariant.suspend_admitted (inv : Invariant does s a) {rest : K}
    (here : s.code w = some (.suspend rest)) :
    StackfulCoroutine.allowed s.coroutines
      (.event ⟨w, s.stack w, .act (.suspend (.routine rest))⟩) := by
  obtain ⟨going, stack, _, f, inside, _⟩ := inv.code_here here
  refine ⟨fun _ t => ?_, fun callee called => absurd called (by simp [Event.resumes])⟩
  -- Suspend is reached in a routine only, and a routine runs on its own stack.
  change s.stack w ≠ .thread t
  rw [stack, inside.control going]
  simp

theorem Invariant.suspend (inv : Invariant does s a) {rest : K}
    (here : s.code w = some (.suspend rest))
    (taken : s.event does w (.act (.suspend (.routine rest))) s.runtime = some s') :
    Advances does s a s' none := by
  obtain ⟨going, _, point, place⟩ := inv.code_here here
  exact inv.acts (inv.suspend_admitted here) taken point rfl (inv.good.suspend going place)
    (.quiet rfl rfl (over_after (point ▸ rfl) rfl))

theorem Invariant.resumed (inv : Invariant does s a) {f : Fiber}
    (taken : s.event does w (.resumed f none) s.runtime = some s') :
    Advances does s a s' none := by
  obtain ⟨there, effect, due, advanced, still⟩ := inv.event (move_free _ rfl rfl _) taken
  obtain ⟨rest, waits, rfl⟩ := Program.advance_resumed.mp advanced
  cases inv.good.placed w with
  | code going _ _ =>
      -- The event asks for a call that has ended here.
      rw [going] at due
      cases due
  | back ended inside result =>
      have own := waits
      rw [inside.control_back ended, inside.waits] at own
      cases own
      rw [Advances, effect]
      exact ⟨_, ⟨still, effect ▸ inv.good.resumed ended inside result⟩,
        .quiet rfl rfl (over_after (waits ▸ rfl) rfl)⟩

theorem Invariant.constructed (inv : Invariant does s a) {f : Fiber} {builder : Option Worker}
    (built : s.runtime.life f = .built builder) (routine : K) :
    Invariant does (s.construct f routine) { a with
      position := Function.update a.position (.coroutine f) (.code (.routine routine)) } := by
  obtain ⟨_, idle⟩ := inv.good.unscheduled (g := f) (by simp [built])
  have alive : s.runtime.life f ≠ .destroyed := by simp [built]
  -- A fiber that is only built has no task, so its coroutine is in no call.
  have free (w' : Worker) : f ∉ a.calls w' := fun called =>
    idle w' (inv.good.called called).executes
  have point : (program does (s.construct f routine).payload : Program Worker Fiber _ _).payload f =
      .routine routine := by simp [program, State.construct]
  have others : ∀ g, g ≠ f →
      (program does (s.construct f routine).payload : Program Worker Fiber _ _).payload g =
        (program does s.payload : Program Worker Fiber _ _).payload g :=
    fun g other => by simp [program, State.construct, other]
  have still := inv.related.constructs free others
  rw [point] at still
  exact ⟨still, inv.good.constructs alive idle routine⟩

theorem Invariant.constructs (inv : Invariant does s a) {f : Fiber} {builder : Option Worker}
    (built : s.runtime.life f = .built builder) (routine : K) :
    ∃ a', Invariant does (s.construct f routine) a' ∧
      ∀ g, (a'.position (.coroutine g)).isOver = (a.position (.coroutine g)).isOver := by
  obtain ⟨_, idle⟩ := inv.good.unscheduled (g := f) (by simp [built])
  refine ⟨_, inv.constructed built routine, fun g => ?_⟩
  by_cases same : g = f
  · subst same
    obtain ⟨k, before⟩ := inv.good.rested g (by simp [built]) idle
    simp [before, Position.isOver]
  · have other : (.coroutine g : Body Worker Fiber) ≠ .coroutine f := by simpa using same
    simp [other]

theorem Invariant.check (inv : Invariant does s a) {f : Fiber} (here : s.code w = some (.check f))
    (unfinished : (s.coroutines.coroutine f).isCompleted = false)
    (moved : s.goto does w .returned (s.runtime.setExecutes w none) = some s') :
    Advances does s a s' none := by
  obtain ⟨going, _, _, place⟩ := inv.code_here here
  rw [(inv.related.idle f (inv.good.outside place.2.2.1 place.1)).completed] at unfinished
  exact inv.goto moved (inv.good.checkYielded going place unfinished) (.quiet rfl rfl)

theorem Invariant.release (inv : Invariant does s a) {f : Fiber} {stack : ℕ}
    (here : s.code w = some (.release f)) (owned : s.runtime.fiberStack f = some stack)
    (moved : s.goto does w (.delete f) (s.runtime.releaseStack w f stack) = some s') :
    Advances does s a s' (some (.released, f)) := by
  obtain ⟨going, _, _, place⟩ := inv.code_here here
  have scheduled := inv.good.executing w f place.2.2.1
  exact inv.goto moved (inv.good.release going place stack) (.releasedStack scheduled owned)

theorem Invariant.delete (inv : Invariant does s a) {f : Fiber}
    (here : s.code w = some (.delete f))
    (moved : s.goto does w .returned ((s.runtime.setLife f .destroyed).setExecutes w none) =
      some s') : Advances does s a s' (some (.destroyed, f)) := by
  obtain ⟨going, _, _, place⟩ := inv.code_here here
  have scheduled := inv.good.executing w f place.2.2.1
  exact inv.goto moved (inv.good.delete going place) (.deleted scheduled)

theorem Invariant.spawn (inv : Invariant does s a) {f : Fiber} {k routine rest : K}
    {next : State Worker Fiber K} (here : s.code w = some (.routine k))
    (unborn : s.runtime.life f = .unborn)
    (moved : s.goto does w (.schedule f rest)
      ((s.runtime.acquireStack w f).setLife f (.built (some w))) = some next) :
    Advances does s a (next.construct f routine) none := by
  obtain ⟨going, _, _, place⟩ := inv.code_here here
  have born := born_acquired s.runtime w f (some w)
  obtain ⟨a', inv', marks⟩ := inv.goto moved (inv.good.spawn going place unborn born)
    (.born unborn born)
  have built : next.runtime.life f = .built (some w) := by
    rw [event_runtime moved]
    exact (congrFun born.life f).trans (Function.update_self ..)
  obtain ⟨a'', constructed, same⟩ := inv'.constructs built routine
  -- Construction changes the coroutine of `f` only, and the runtime not at all.
  have quiet : Marks next.runtime (next.construct f routine).runtime a' a'' none :=
    .quiet rfl rfl same
  exact ⟨a'', constructed, marks.trans quiet⟩

theorem Invariant.schedule (inv : Invariant does s a) {f : Fiber} {rest : K}
    (here : s.code w = some (.schedule f rest))
    (moved : s.goto does w (.routine rest) ((s.runtime.submit f none).setLife f .scheduled) =
      some s') : Advances does s a s' (some (.submitted, f)) := by
  obtain ⟨going, _, _, place⟩ := inv.code_here here
  have ⟨_, _, _, built⟩ := place
  exact inv.goto moved (inv.good.schedule going place) (.scheduled built)

theorem Invariant.finish (inv : Invariant does s a) {f : Fiber} {k : K}
    (here : s.code w = some (.routine k)) (mine : s.stack w = .coroutine f)
    (moved : s.event does w (.act .finish) s.runtime = some s') :
    Advances does s a s' (some (.finished, f)) := by
  obtain ⟨going, stack, point, place⟩ := inv.code_here here
  exact inv.acts (move_free _ rfl rfl _) moved point rfl (inv.good.finish going place)
    (.finish (stack.symm.trans mine) (point ▸ rfl))

theorem Invariant.executes (inv : Invariant does s a) {statement : Statement Fiber K}
    {k : Code Fiber K} (here : s.code w = some k) (executes : Executes does s w statement k s') :
    Advances does s a s' statement.mark := by
  obtain ⟨going, _, _, place⟩ := inv.code_here here
  cases executes with
  | take pending moved =>
      exact inv.goto moved (inv.good.take going place pending) (.quiet rfl rfl)
  | enter moved => exact inv.goto moved (inv.good.enter going place) (.quiet rfl rfl)
  | resume moved => exact inv.resume here moved
  | restore moved => exact inv.goto moved (inv.good.restore going place) (.quiet rfl rfl)
  | completed reports moved =>
      have ends := inv.related.completed reports
      exact inv.goto moved (inv.good.checkCompleted going place ends) (.quiet rfl rfl)
  | yielded silent moved => exact inv.check here (by simpa using silent) moved
  | release owned moved => exact inv.release here owned moved
  | delete moved => exact inv.delete here moved
  | leave moved => exact inv.goto moved (inv.good.leave going place) (.quiet rfl rfl)
  | segment _ moved => exact inv.goto moved (inv.good.segment going place) (.quiet rfl rfl)
  | spawn unborn _ moved => exact inv.spawn here unborn moved
  | schedule moved => exact inv.schedule here moved
  | yield _ current moved =>
      exact inv.goto moved (inv.good.yield going place current) (.quiet rfl rfl)
  | suspend moved => exact inv.suspend here moved
  | finish mine moved => exact inv.finish here mine moved

omit [DecidableEq Worker] in
theorem Invariant.allocated (inv : Invariant does s a) {f : Fiber}
    (unborn : s.runtime.life f = .unborn) :
    Invariant does { s with
      runtime := (s.runtime.allocateStack f).setLife f (.built none) } a := by
  have born := born_allocated s.runtime f (none : Option Worker)
  exact ⟨inv.related, inv.good.born unborn born
    (fun w => (inv.good.placed w).kept ⟨inv.good.spared_born unborn born w, rfl, rfl, rfl,
      fun _ _ => rfl⟩) fun _ _ => rfl⟩

theorem Invariant.outsideSpawn (inv : Invariant does s a) {f : Fiber}
    (unborn : s.runtime.life f = .unborn) (routine : K) :
    Advances does s a { s.construct f routine with
      runtime := (s.runtime.allocateStack f).setLife f (.built none) } none := by
  have born := born_allocated s.runtime f (none : Option Worker)
  have built : ((s.runtime.allocateStack f).setLife f (.built none)).life f = .built none := by
    rw [born.life, Function.update_self]
  obtain ⟨a', constructed, same⟩ := (inv.allocated unborn).constructs built routine
  exact ⟨a', constructed, .born unborn born same⟩

theorem Invariant.step (inv : Invariant does s a) {label : Label Worker Fiber K}
    (taken : step does s label = some s') : Advances does s a s' label.mark := by
  cases label with
  | internal w =>
      obtain ⟨coroutines, moved, rfl⟩ := Option.map_eq_some_iff.mp taken
      exact ⟨a, ⟨inv.related.internal_kept moved, inv.good⟩, .quiet rfl rfl fun _ => rfl⟩
  | statement w executed =>
      rcases statement_executes taken with ⟨f, rfl, moved⟩ | ⟨k, here, executes⟩
      · exact inv.resumed moved
      · exact inv.executes here executes
  | outsideSpawn f routine =>
      simp only [Fibers.step] at taken
      split at taken
      · rename_i unborn
        cases taken
        exact inv.outsideSpawn unborn routine
      · cases taken
  | outsideSubmit f =>
      simp only [Fibers.step] at taken
      split at taken
      · rename_i built
        cases taken
        exact inv.outsideSubmit built
      · cases taken

/-- The run lemma: a run says of a fiber what the runtime shows, and says it once. -/
theorem reaches_invariant {payload : Fiber → K} {trace : List (Label Worker Fiber K)}
    (run : Reaches (step does) unrestricted (init does payload) trace s) :
    ∃ a, Invariant does s a ∧ ∀ m, (history trace).count m = (shows s.runtime a m).toNat := by
  induction run with
  | start =>
      refine ⟨_, init_invariant does payload, fun m => ?_⟩
      obtain ⟨mark, f⟩ := m
      cases mark <;> rfl
  | @next trace before after label reached admitted taken ih =>
      obtain ⟨a, inv, recorded⟩ := ih
      obtain ⟨a', inv', marks⟩ := inv.step taken
      refine ⟨a', inv', fun m => ?_⟩
      have grows : history (trace ++ [label]) = history trace ++ label.mark.toList :=
        filterMap_snoc ..
      rw [grows, List.count_append, recorded m]
      by_cases made : label.mark = some m
      · obtain ⟨fresh, shown⟩ := marks.made m made
        simp [made, fresh, shown]
      · rw [marks.kept m made]
        have absent : m ∉ label.mark.toList := by simpa [eq_comm] using made
        rw [List.count_eq_zero_of_not_mem absent]
        rfl

theorem reaches_stacked {payload : Fiber → K} {trace : List (Label Worker Fiber K)}
    (run : Reaches (step does) unrestricted (init does payload) trace s) :
    Stacked (history trace) s.runtime := by
  obtain ⟨a, _, recorded⟩ := reaches_invariant run
  obtain ⟨calls, p, number, made, _, rep⟩ := stacks_refine_pool run
  have owned := (StackPool.inv_reached made).owned
  refine ⟨fun stack => rep.one_owner owned, fun f born kept => ?_, fun f released => ?_⟩
  · rw [mem_history recorded] at kept
    cases holds : s.runtime.fiberStack f with
    | some stack => exact ⟨stack, rep.held_lt owned holds, rfl⟩
    | none =>
        -- Neither released nor holding a stack: the fiber was never born.
        have fresh : (s.runtime.life f).isBorn = false := by simpa [shows, holds] using kept
        exact absurd (Life.unborn_of fresh) born
  · have shown := (mem_history recorded _).mp released
    simp only [shows, Bool.and_eq_true, Option.isNone_iff_eq_none] at shown
    exact shown.2

/-- Each fiber has exactly one future. In every run a scheduled fiber that is not
destroyed is in one pending task or on one worker, and a destroyed one in neither. The
release of a fiber puts its stack on the pool of the worker, and every stack is in one
fiber or in one slot of a pool. -/
theorem one_future {payload : Fiber → K} {trace : List (Label Worker Fiber K)}
    (run : Reaches (step does) unrestricted (init does payload) trace s) :
    Settled (history trace) s ∧ Stacked (history trace) s.runtime ∧
      ∀ early w f late, trace = early ++ .statement w (.release f) :: late →
        ∃ before after stack,
          Reaches (step does) unrestricted (init does payload) early before ∧
          step does before (.statement w (.release f)) = some after ∧
          before.runtime.fiberStack f = some stack ∧ after.runtime.fiberStack f = none ∧
          after.runtime.pool =
            Function.update before.runtime.pool w (stack :: before.runtime.pool w) := by
  obtain ⟨a, inv, recorded⟩ := reaches_invariant run
  refine ⟨inv.settled recorded, reaches_stacked run, ?_⟩
  rintro early w f late rfl
  obtain ⟨before, after, reached, _, taken, _⟩ := run.around
  refine ⟨before, after, ?_⟩
  have effect := statement_effect taken
  generalize after.runtime = next at effect ⊢
  cases effect with
  | release owned =>
      exact ⟨_, reached, taken, owned, by simp [Runtime.releaseStack], rfl⟩

end Events

def parentAndChild (k : ℕ) (action : Action ℕ) : Bool :=
  decide ((k, action) ∈
    [(0, .spawn 10 1), (1, .yield 2), (2, .finish), (10, .yield 11), (11, .finish)])

/-- The child comes back on the other worker, and each fiber leaves its stack to the
worker on which it ends. -/
theorem one_future_migrated :
    ∃ (trace : List (Label Bool Bool ℕ)) (s : State Bool Bool ℕ),
      run (step parentAndChild) (init parentAndChild fun _ => 0) trace = some s ∧
      (∀ f, (.destroyed, f) ∈ history trace) ∧ s.runtime.pool false = [1] ∧
      s.runtime.pool true = [0] ∧ Settled (history trace) s ∧
      Stacked (history trace) s.runtime := by
  have ran : run (step parentAndChild) (init parentAndChild fun _ => 0)
      [.outsideSpawn false 0, .outsideSubmit false, .statement false (.take false),
        .statement false .enter, .statement false .resume, .internal false, .internal false,
        .internal false, .statement false (.spawn true 10 1), .statement false (.schedule true),
        .statement true (.take true), .statement true .enter, .statement true .resume,
        .internal true, .internal true, .internal true, .statement false (.yield 2),
        .statement true (.yield 11), .statement true .suspend, .internal true, .internal true,
        .statement true (.resumed true), .statement true .restore, .statement true .check,
        .statement true .leave, .statement false .suspend, .internal false, .internal false,
        .statement false (.resumed false), .statement false .restore, .statement false .check,
        .statement false .leave, .statement false (.take true), .statement false .enter,
        .statement false .resume, .internal false, .internal false,
        .statement false (.finish true), .internal false, .internal false, .internal false,
        .statement false (.resumed true), .statement false .restore, .statement false .check,
        .statement false (.release true), .statement false (.delete true),
        .statement false .leave, .statement true (.take false), .statement true .enter,
        .statement true .resume, .internal true, .internal true,
        .statement true (.finish false), .internal true, .internal true, .internal true,
        .statement true (.resumed false), .statement true .restore, .statement true .check,
        .statement true (.release false), .statement true (.delete false),
        .statement true .leave] =
        some _ := rfl
  have future := one_future (run_free ran)
  exact ⟨_, _, ran, by decide, rfl, rfl, future.1, future.2.1⟩

end ConcurrencyCourse.Fibers
