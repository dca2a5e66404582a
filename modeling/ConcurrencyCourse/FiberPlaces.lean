import ConcurrencyCourse.Fibers

/-!
Where every worker and every fiber is. A worker's place lists, for each statement of
the fibers' code, what the runtime and the coroutines say there; one fact per
statement shows that it leads to the next place and spares everybody else's.
-/

namespace ConcurrencyCourse.Fibers

open Interleaving Asymmetric

variable {Worker Fiber K : Type*}

abbrev Abstract (Worker Fiber K : Type*) := Asymmetric.State Worker Fiber (Code Fiber K) Empty

structure Inside (r : Runtime Worker Fiber) (a : Abstract Worker Fiber K) (w : Worker)
    (f : Fiber) : Prop where
  calls : a.calls w = [f]
  waits : a.position (.thread w) = .waiting f (.restore f none)
  current : r.currentFiber w = some f
  executes : r.executes w = some f

structure Alone (r : Runtime Worker Fiber) (w : Worker) (f : Fiber) : Prop where
  none_of : ∀ task ∈ r.tasks, task.fiber ≠ f
  none_after : ∀ task ∈ r.tasks, task.after ≠ some w

/-- The fiber's next Dispatch is the one task that waits for the worker. -/
structure Yielded (r : Runtime Worker Fiber) (w : Worker) (f : Fiber) : Prop where
  submitted : ⟨f, some w⟩ ∈ r.tasks
  only : ∀ task ∈ r.tasks, task.after = some w → task.fiber = f

inductive Result (r : Runtime Worker Fiber) (a : Abstract Worker Fiber K) (w : Worker)
    (f : Fiber) : Prop where
  | yielded {k : K} (here : a.position (.coroutine f) = .code (.routine k))
      (yielded : Yielded r w f) : Result r a w f
  | returned (here : a.position (.coroutine f) = .finished) (alone : Alone r w f) : Result r a w f

def Resumable (a : Abstract Worker Fiber K) (f : Fiber) : Prop :=
  ∃ k, a.position (.coroutine f) = .code (.routine k)

def Here (r : Runtime Worker Fiber) (a : Abstract Worker Fiber K) (w : Worker) :
    Code Fiber K → Prop
  | .idle => a.calls w = [] ∧ r.currentFiber w = none ∧ r.executes w = none ∧
      ∀ task ∈ r.tasks, task.after ≠ some w
  -- A task that Yield submitted may still wait for this worker to return.
  | .returned => a.calls w = [] ∧ r.currentFiber w = none ∧ r.executes w = none
  | .dispatch f => a.calls w = [] ∧ r.currentFiber w = none ∧ r.executes w = some f ∧
      Alone r w f ∧ Resumable a f
  | .resume f prev => prev = none ∧ a.calls w = [] ∧ r.currentFiber w = some f ∧
      r.executes w = some f ∧ Alone r w f ∧ Resumable a f
  | .restore f prev => prev = none ∧ a.calls w = [] ∧ r.currentFiber w = some f ∧
      r.executes w = some f ∧ Result r a w f
  | .check f => a.calls w = [] ∧ r.currentFiber w = none ∧ r.executes w = some f ∧ Result r a w f
  | .release f => a.calls w = [] ∧ r.currentFiber w = none ∧ r.executes w = some f ∧
      a.position (.coroutine f) = .finished ∧ Alone r w f
  | .delete f => a.calls w = [] ∧ r.currentFiber w = none ∧ r.executes w = some f ∧
      a.position (.coroutine f) = .finished ∧ Alone r w f ∧ r.fiberStack f = none
  | .routine _ => ∃ f, Inside r a w f ∧ Alone r w f
  | .schedule g _ => ∃ f, Inside r a w f ∧ Alone r w f ∧ r.life g = .built (some w)
  -- Between the two statements of Yield: the next Dispatch is queued, the coroutine still runs.
  | .suspend _ => ∃ f, Inside r a w f ∧ Yielded r w f

/-- A worker executes some code, or is on its way back from a fiber into Dispatch. -/
inductive Placed (r : Runtime Worker Fiber) (a : Abstract Worker Fiber K) (w : Worker) : Prop where
  | code {k : Code Fiber K} (going : a.ended w = none)
      (point : a.position (a.inControl w) = .code k) (here : Here r a w k) : Placed r a w
  | back {f : Fiber} (ended : a.ended w = some none) (inside : Inside r a w f)
      (result : Result r a w f) : Placed r a w

/-- Every scheduled fiber has one future: the one task that refers to it, or the one
worker that executes it. -/
structure Good (r : Runtime Worker Fiber) (a : Abstract Worker Fiber K) : Prop where
  placed : ∀ w, Placed r a w
  nodup : (r.tasks.map Task.fiber).Nodup
  live : ∀ task ∈ r.tasks, r.life task.fiber = .scheduled
  held : ∀ task ∈ r.tasks, ∀ w, r.executes w = some task.fiber → task.after = some w
  executing : ∀ w f, r.executes w = some f → r.life f = .scheduled
  unique : ∀ w w' f, r.executes w = some f → r.executes w' = some f → w = w'
  covered : ∀ f, r.life f = .scheduled →
    (∃ task ∈ r.tasks, task.fiber = f) ∨ ∃ w, r.executes w = some f
  rested : ∀ f, r.life f ≠ .destroyed → (∀ w, r.executes w ≠ some f) → Resumable a f
  released : ∀ f, r.life f = .destroyed →
    r.fiberStack f = none ∧ a.position (.coroutine f) = .finished

/-- What a worker's place depends on in the runtime is the same before and after. -/
structure Spared (r r' : Runtime Worker Fiber) (w : Worker) : Prop where
  current : r'.currentFiber w = r.currentFiber w
  executes : r'.executes w = r.executes w
  after : ∀ task, task.after = some w → (task ∈ r'.tasks ↔ task ∈ r.tasks)
  tasks : ∀ task, r.executes w = some task.fiber → (task ∈ r'.tasks ↔ task ∈ r.tasks)
  building : ∀ g, r.life g = .built (some w) → r'.life g = .built (some w)
  stack : ∀ f, r.executes w = some f → r'.fiberStack f = r.fiberStack f

structure Kept (r r' : Runtime Worker Fiber) (a a' : Abstract Worker Fiber K) (w : Worker) : Prop
    extends Spared r r' w where
  calls : a'.calls w = a.calls w
  ended : a'.ended w = a.ended w
  thread : a'.position (.thread w) = a.position (.thread w)
  fiber : ∀ f, r.executes w = some f → a'.position (.coroutine f) = a.position (.coroutine f)

section Frames
variable {r r' : Runtime Worker Fiber} {a a' : Abstract Worker Fiber K} {w : Worker} {f : Fiber}

theorem Inside.kept (inside : Inside r a w f) (kept : Kept r r' a a' w) : Inside r' a' w f where
  calls := kept.calls.trans inside.calls
  waits := kept.thread.trans inside.waits
  current := kept.current.trans inside.current
  executes := kept.executes.trans inside.executes

theorem quiet_kept (quiet : ∀ task ∈ r.tasks, task.after ≠ some w) (kept : Kept r r' a a' w) :
    ∀ task ∈ r'.tasks, task.after ≠ some w :=
  fun task inside after => quiet task ((kept.after task after).mp inside) after

theorem Alone.kept (alone : Alone r w f) (executes : r.executes w = some f)
    (kept : Kept r r' a a' w) : Alone r' w f where
  none_of task inside same := by
    subst same
    exact alone.none_of task ((kept.tasks task executes).mp inside) rfl
  none_after := quiet_kept alone.none_after kept

theorem Yielded.kept (yielded : Yielded r w f) (kept : Kept r r' a a' w) : Yielded r' w f where
  submitted := (kept.after _ rfl).mpr yielded.submitted
  only task inside after := yielded.only task ((kept.after task after).mp inside) after

theorem Resumable.kept (resumable : Resumable a f) (executes : r.executes w = some f)
    (kept : Kept r r' a a' w) : Resumable a' f := by
  obtain ⟨k, here⟩ := resumable
  exact ⟨k, (kept.fiber f executes).trans here⟩

theorem Result.kept (result : Result r a w f) (executes : r.executes w = some f)
    (kept : Kept r r' a a' w) : Result r' a' w f := by
  cases result with
  | yielded here yielded => exact .yielded ((kept.fiber f executes).trans here) (yielded.kept kept)
  | returned here alone =>
      exact .returned ((kept.fiber f executes).trans here) (alone.kept executes kept)

theorem Here.kept {k : Code Fiber K} (here : Here r a w k) (kept : Kept r r' a a' w) :
    Here r' a' w k := by
  cases k with
  | idle =>
      obtain ⟨calls, current, executes, quiet⟩ := here
      exact ⟨kept.calls.trans calls, kept.current.trans current, kept.executes.trans executes,
        quiet_kept quiet kept⟩
  | returned =>
      obtain ⟨calls, current, executes⟩ := here
      exact ⟨kept.calls.trans calls, kept.current.trans current, kept.executes.trans executes⟩
  | dispatch f =>
      obtain ⟨calls, current, executes, alone, resumable⟩ := here
      exact ⟨kept.calls.trans calls, kept.current.trans current, kept.executes.trans executes,
        alone.kept executes kept, resumable.kept executes kept⟩
  | resume f prev =>
      obtain ⟨same, calls, current, executes, alone, resumable⟩ := here
      exact ⟨same, kept.calls.trans calls, kept.current.trans current,
        kept.executes.trans executes, alone.kept executes kept, resumable.kept executes kept⟩
  | restore f prev =>
      obtain ⟨same, calls, current, executes, result⟩ := here
      exact ⟨same, kept.calls.trans calls, kept.current.trans current,
        kept.executes.trans executes, result.kept executes kept⟩
  | check f =>
      obtain ⟨calls, current, executes, result⟩ := here
      exact ⟨kept.calls.trans calls, kept.current.trans current, kept.executes.trans executes,
        result.kept executes kept⟩
  | release f =>
      obtain ⟨calls, current, executes, finished, alone⟩ := here
      exact ⟨kept.calls.trans calls, kept.current.trans current, kept.executes.trans executes,
        (kept.fiber f executes).trans finished, alone.kept executes kept⟩
  | delete f =>
      obtain ⟨calls, current, executes, finished, alone, released⟩ := here
      exact ⟨kept.calls.trans calls, kept.current.trans current, kept.executes.trans executes,
        (kept.fiber f executes).trans finished, alone.kept executes kept,
        (kept.stack f executes).trans released⟩
  | routine k =>
      obtain ⟨f, inside, alone⟩ := here
      exact ⟨f, inside.kept kept, alone.kept inside.executes kept⟩
  | schedule g rest =>
      obtain ⟨f, inside, alone, built⟩ := here
      exact ⟨f, inside.kept kept, alone.kept inside.executes kept, kept.building g built⟩
  | suspend rest =>
      obtain ⟨f, inside, yielded⟩ := here
      exact ⟨f, inside.kept kept, yielded.kept kept⟩

theorem control_thread (calls : a.calls w = []) : a.inControl w = .thread w := by
  unfold Asymmetric.State.inControl Asymmetric.State.held
  split <;> simp [calls, innermost]

theorem Inside.control (inside : Inside r a w f) (going : a.ended w = none) :
    a.inControl w = .coroutine f := by
  simp [Asymmetric.State.inControl, Asymmetric.State.held, going, inside.calls, innermost]

theorem Inside.control_back (inside : Inside r a w f) {thrown : Option Empty}
    (ended : a.ended w = some thrown) : a.inControl w = .thread w := by
  simp [Asymmetric.State.inControl, Asymmetric.State.held, ended, inside.calls, innermost]

theorem Placed.mine (placed : Placed r a w) :
    a.inControl w = .thread w ∨ ∃ f, r.executes w = some f ∧ a.inControl w = .coroutine f := by
  cases placed with
  | @code k going point here =>
      cases k with
      | routine k =>
          obtain ⟨f, inside, _⟩ := here
          exact .inr ⟨f, inside.executes, inside.control going⟩
      | schedule g rest =>
          obtain ⟨f, inside, _⟩ := here
          exact .inr ⟨f, inside.executes, inside.control going⟩
      | suspend rest =>
          obtain ⟨f, inside, _⟩ := here
          exact .inr ⟨f, inside.executes, inside.control going⟩
      | resume f prev => exact .inl (control_thread here.2.1)
      | restore f prev => exact .inl (control_thread here.2.1)
      | _ => exact .inl (control_thread here.1)
  | back ended inside _ => exact .inl (inside.control_back ended)

theorem Placed.kept (placed : Placed r a w) (kept : Kept r r' a a' w) : Placed r' a' w := by
  have control : a'.inControl w = a.inControl w := by
    unfold Asymmetric.State.inControl Asymmetric.State.held
    rw [kept.calls, kept.ended]
  have same : a'.position (a.inControl w) = a.position (a.inControl w) := by
    rcases placed.mine with own | ⟨f, executes, here⟩
    · rw [own]
      exact kept.thread
    · rw [here]
      exact kept.fiber f executes
  cases placed with
  | code going point here =>
      refine .code (kept.ended.trans going) ?_ (here.kept kept)
      rw [control, same]
      exact point
  | back ended inside result =>
      exact .back (kept.ended.trans ended) (inside.kept kept) (result.kept inside.executes kept)

theorem Spared.refl (r : Runtime Worker Fiber) (w : Worker) : Spared r r w :=
  ⟨rfl, rfl, fun _ _ => .rfl, fun _ _ => .rfl, fun _ built => built, fun _ _ => rfl⟩

theorem Good.destroyed_idle (good : Good r a) (destroyed : r.life f = .destroyed) (w : Worker) :
    r.executes w ≠ some f := by
  intro executes
  rw [good.executing w f executes] at destroyed
  cases destroyed

variable [DecidableEq Worker] [DecidableEq Fiber] {e : Event Fiber (Code Fiber K) Empty}
  {there : Position Fiber (Code Fiber K) Empty}

theorem Good.kept (good : Good r a) {w' : Worker} (different : w' ≠ w) (spared : Spared r r' w') :
    Kept r r' a (a.after w e there) w' := by
  have apart {body : Body Worker Fiber} (own : a.inControl w ≠ body) :
      (a.after w e there).position body = a.position body :=
    Function.update_of_ne (fun same => own same.symm) ..
  refine ⟨spared, ?_, ?_, apart ?_, fun f executes => apart ?_⟩
  · simp [Asymmetric.State.after, different]
  · simp [Asymmetric.State.after, different]
  -- The worker that moves is in its own thread or in the fiber it executes, and no fiber is
  -- executed twice.
  · rcases (good.placed w).mine with own | ⟨f, _, here⟩
    · rw [own]
      intro same
      cases same
      exact different rfl
    · rw [here]
      intro same
      cases same
  · rcases (good.placed w).mine with own | ⟨f', executes', here⟩
    · rw [own]
      intro same
      cases same
    · rw [here]
      intro same
      cases same
      exact different (good.unique _ _ _ executes executes')

theorem Good.position_other (good : Good r a) {f : Fiber} (idle : ∀ w, r.executes w ≠ some f) :
    (a.after w e there).position (.coroutine f) = a.position (.coroutine f) := by
  refine Function.update_of_ne ?_ ..
  rcases (good.placed w).mine with own | ⟨f', executes, here⟩
  · rw [own]
    intro same
    cases same
  · rw [here]
    intro same
    cases same
    exact idle w executes

theorem Good.quiet (good : Good r a) (tasks : r'.tasks = r.tasks)
    (executes : r'.executes = r.executes) (life : r'.life = r.life)
    (owned : r'.fiberStack = r.fiberStack)
    (current : ∀ w', w' ≠ w → r'.currentFiber w' = r.currentFiber w')
    (placed : Placed r' (a.after w e there) w) : Good r' (a.after w e there) where
  placed w' := by
    by_cases same : w' = w
    · exact same ▸ placed
    · refine (good.placed w').kept (good.kept same ⟨current w' same, ?_, ?_, ?_, ?_, ?_⟩)
      · rw [executes]
      · simp [tasks]
      · simp [tasks]
      · simp [life]
      · simp [owned]
  nodup := tasks ▸ good.nodup
  live := tasks ▸ life ▸ good.live
  held := tasks ▸ executes ▸ good.held
  executing := life ▸ executes ▸ good.executing
  unique := executes ▸ good.unique
  covered := tasks ▸ life ▸ executes ▸ good.covered
  rested f alive idle := by
    rw [life] at alive
    rw [executes] at idle
    obtain ⟨k, here⟩ := good.rested f alive idle
    exact ⟨k, (good.position_other idle).trans here⟩
  released f destroyed := by
    rw [life] at destroyed
    obtain ⟨stack, finished⟩ := good.released f destroyed
    rw [owned]
    exact ⟨stack, (good.position_other (good.destroyed_idle destroyed)).trans finished⟩

end Frames

section Tasks
variable {r : Runtime Worker Fiber} {a : Abstract Worker Fiber K}

theorem nodup_fiber (good : Good r a) {task other : Task Worker Fiber} (one : task ∈ r.tasks)
    (two : other ∈ r.tasks) (same : task.fiber = other.fiber) : task = other :=
  List.inj_on_of_nodup_map good.nodup one two same

theorem Good.unscheduled (good : Good r a) {g : Fiber} (other : r.life g ≠ .scheduled) :
    (∀ task ∈ r.tasks, task.fiber ≠ g) ∧ ∀ w, r.executes w ≠ some g :=
  ⟨fun task pending same => other (same ▸ good.live task pending),
    fun w executes => other (good.executing w g executes)⟩

theorem mem_submit {g : Fiber} {after : Option Worker} {task : Task Worker Fiber} :
    task ∈ (r.submit g after).tasks ↔ task ∈ r.tasks ∨ task = ⟨g, after⟩ := by
  simp [Runtime.submit, Runtime.setTasks]

theorem submit_nodup (good : Good r a) {g : Fiber} (absent : ∀ task ∈ r.tasks, task.fiber ≠ g)
    (after : Option Worker) : ((r.submit g after).tasks.map Task.fiber).Nodup := by
  have fresh : g ∉ r.tasks.map Task.fiber := by
    intro inside
    obtain ⟨task, pending, same⟩ := List.mem_map.mp inside
    exact absent task pending same
  have apart : (r.tasks.map Task.fiber ++ [g]).Nodup :=
    List.nodup_append.mpr ⟨good.nodup, List.nodup_singleton g, by
      intro x inside y last same
      cases List.mem_singleton.mp last
      exact fresh (same ▸ inside)⟩
  simpa [Runtime.submit, Runtime.setTasks] using apart

end Tasks

section Births
variable {r r' : Runtime Worker Fiber} {a a' : Abstract Worker Fiber K} {w : Worker}
variable [DecidableEq Fiber]

theorem Good.scheduled (good : Good r a) {g : Fiber} {builder : Option Worker}
    (built : r.life g = .built builder)
    (placed : ∀ w, Placed ((r.submit g none).setLife g .scheduled) a' w)
    (same : ∀ f, (∀ w, r.executes w ≠ some f) →
      a'.position (.coroutine f) = a.position (.coroutine f)) :
    Good ((r.submit g none).setLife g .scheduled) a' := by
  obtain ⟨absent, idle⟩ := good.unscheduled (g := g) (by simp [built])
  have still {f : Fiber} (other : f ≠ g) :
      ((r.submit g none).setLife g .scheduled).life f = r.life f := by
    simp [Runtime.setLife, Runtime.submit, Runtime.setTasks, other]
  have now : ((r.submit g none).setLife g .scheduled).life g = .scheduled := by
    simp [Runtime.setLife]
  have lives {f : Fiber} (alive : r.life f = .scheduled) :
      ((r.submit g none).setLife g .scheduled).life f = .scheduled := by
    by_cases eq : f = g
    · exact eq ▸ now
    · exact (still eq).trans alive
  refine ⟨placed, submit_nodup good absent none, ?_, ?_, ?_, good.unique, ?_, ?_, ?_⟩
  · intro task inside
    rcases mem_submit.mp inside with before | rfl
    · exact lives (good.live task before)
    · exact now
  · intro task inside w executes
    rcases mem_submit.mp inside with before | rfl
    · exact good.held task before w executes
    · exact absurd executes (idle w)
  · exact fun w f executes => lives (good.executing w f executes)
  -- The task just submitted is the future of the new fiber.
  · intro f alive
    by_cases eq : f = g
    · exact .inl ⟨_, mem_submit.mpr (.inr rfl), eq.symm⟩
    · rw [still eq] at alive
      rcases good.covered f alive with ⟨task, pending, refers⟩ | executing
      · exact .inl ⟨task, mem_submit.mpr (.inl pending), refers⟩
      · exact .inr executing
  · intro f alive unexecuted
    have before : r.life f ≠ .destroyed := by
      by_cases eq : f = g
      · rw [eq, built]
        simp
      · rwa [still eq] at alive
    obtain ⟨k, point⟩ := good.rested f before unexecuted
    exact ⟨k, (same f unexecuted).trans point⟩
  · intro f destroyed
    by_cases eq : f = g
    · rw [eq, now] at destroyed
      cases destroyed
    · rw [still eq] at destroyed
      obtain ⟨stack, finished⟩ := good.released f destroyed
      exact ⟨stack, (same f (good.destroyed_idle destroyed)).trans finished⟩

theorem Good.spared_scheduled (good : Good r a) {g : Fiber} {builder : Option Worker}
    (built : r.life g = .built builder) {w' : Worker} (different : builder ≠ some w') :
    Spared r ((r.submit g none).setLife g .scheduled) w' := by
  obtain ⟨_, idle⟩ := good.unscheduled (g := g) (by simp [built])
  have other {f : Fiber} (here : r.life f = .built (some w')) : f ≠ g := by
    rintro rfl
    cases built.symm.trans here
    exact different rfl
  refine ⟨rfl, rfl, fun task after => ?_, fun task executes => ?_, fun f here => ?_,
    fun _ _ => rfl⟩
  · refine ⟨fun inside => ?_, fun inside => mem_submit.mpr (.inl inside)⟩
    rcases mem_submit.mp inside with before | rfl
    · exact before
    · cases after
  · refine ⟨fun inside => ?_, fun inside => mem_submit.mpr (.inl inside)⟩
    rcases mem_submit.mp inside with before | rfl
    · exact before
    · exact absurd executes (idle w')
  · simpa [Runtime.setLife, Runtime.submit, Runtime.setTasks, other here] using here

/-- A new fiber: what was there before does not know of it. -/
structure Born (r r' : Runtime Worker Fiber) (g : Fiber) (builder : Option Worker) : Prop where
  tasks : r'.tasks = r.tasks
  executes : r'.executes = r.executes
  current : r'.currentFiber = r.currentFiber
  life : r'.life = Function.update r.life g (.built builder)
  stack : ∀ f, f ≠ g → r'.fiberStack f = r.fiberStack f
  owned : (r'.fiberStack g).isNone = false

theorem born_allocated (r : Runtime Worker Fiber) (g : Fiber) (builder : Option Worker) :
    Born r ((r.allocateStack g).setLife g (.built builder)) g builder :=
  ⟨rfl, rfl, rfl, rfl, fun f other => by simp [Runtime.setLife, Runtime.allocateStack, other],
    by simp [Runtime.setLife, Runtime.allocateStack]⟩

theorem Good.spared_born (good : Good r a) {g : Fiber} {builder : Option Worker}
    (unborn : r.life g = .unborn) (born : Born r r' g builder) (w' : Worker) : Spared r r' w' := by
  obtain ⟨_, idle⟩ := good.unscheduled (g := g) (by simp [unborn])
  refine ⟨by rw [born.current], by rw [born.executes], fun _ _ => by rw [born.tasks],
    fun _ _ => by rw [born.tasks], fun f built => ?_, fun f executes => born.stack f ?_⟩
  · have other : f ≠ g := by
      rintro rfl
      cases unborn.symm.trans built
    rw [born.life, Function.update_of_ne other]
    exact built
  · rintro rfl
    exact idle w' executes

theorem Good.born (good : Good r a) {g : Fiber} {builder : Option Worker}
    (unborn : r.life g = .unborn) (born : Born r r' g builder) (placed : ∀ w, Placed r' a' w)
    (same : ∀ f, (∀ w, r.executes w ≠ some f) →
      a'.position (.coroutine f) = a.position (.coroutine f)) : Good r' a' := by
  have before {f : Fiber} {life : Life Worker} (now : r'.life f = life)
      (other : life ≠ .built builder) : r.life f = life := by
    by_cases eq : f = g
    · subst eq
      rw [born.life, Function.update_self] at now
      exact absurd now.symm other
    · rwa [born.life, Function.update_of_ne eq] at now
  have after {f : Fiber} (scheduled : r.life f = .scheduled) : r'.life f = .scheduled := by
    have other : f ≠ g := by
      rintro rfl
      cases unborn.symm.trans scheduled
    rw [born.life, Function.update_of_ne other]
    exact scheduled
  refine ⟨placed, born.tasks ▸ good.nodup, ?_, ?_, ?_, born.executes ▸ good.unique, ?_, ?_, ?_⟩
  · intro task pending
    rw [born.tasks] at pending
    exact after (good.live task pending)
  · exact born.tasks ▸ born.executes ▸ good.held
  · intro w f executes
    rw [born.executes] at executes
    exact after (good.executing w f executes)
  · intro f scheduled
    rw [born.tasks, born.executes]
    exact good.covered f (before scheduled (by simp))
  · intro f alive idle
    rw [born.executes] at idle
    have earlier : r.life f ≠ .destroyed := by
      intro destroyed
      by_cases eq : f = g
      · rw [eq, unborn] at destroyed
        cases destroyed
      · rw [born.life, Function.update_of_ne eq] at alive
        exact alive destroyed
    obtain ⟨k, point⟩ := good.rested f earlier idle
    exact ⟨k, (same f idle).trans point⟩
  · intro f destroyed
    have earlier := before destroyed (by simp)
    have other : f ≠ g := by
      rintro rfl
      cases unborn.symm.trans earlier
    obtain ⟨stack, finished⟩ := good.released f earlier
    rw [born.stack f other]
    exact ⟨stack, (same f (good.destroyed_idle earlier)).trans finished⟩

end Births

section Statements
variable {r r' : Runtime Worker Fiber} {a a' : Abstract Worker Fiber K} {w : Worker} {f : Fiber}

theorem Inside.moved (inside : Inside r a w f) (calls : a'.calls w = a.calls w)
    (thread : a'.position (.thread w) = a.position (.thread w))
    (current : r'.currentFiber = r.currentFiber) (executes : r'.executes = r.executes) :
    Inside r' a' w f where
  calls := calls.trans inside.calls
  waits := thread.trans inside.waits
  current := current ▸ inside.current
  executes := executes ▸ inside.executes

theorem Alone.moved (alone : Alone r w f) (tasks : r'.tasks = r.tasks) : Alone r' w f :=
  ⟨tasks ▸ alone.none_of, tasks ▸ alone.none_after⟩

theorem Result.moved (result : Result r a w f)
    (fiber : a'.position (.coroutine f) = a.position (.coroutine f))
    (tasks : r'.tasks = r.tasks) : Result r' a' w f := by
  cases result with
  | yielded here yielded =>
      exact .yielded (fiber.trans here) ⟨tasks ▸ yielded.submitted, tasks ▸ yielded.only⟩
  | returned here alone => exact .returned (fiber.trans here) (alone.moved tasks)

theorem Good.called (good : Good r a) (called : f ∈ a.calls w) : Inside r a w f := by
  have found : ∃ f', Inside r a w f' := by
    cases good.placed w with
    | back _ inside _ => exact ⟨_, inside⟩
    | @code k _ _ here =>
        cases k with
        | routine k => exact ⟨_, here.choose_spec.1⟩
        | schedule g rest => exact ⟨_, here.choose_spec.1⟩
        | suspend rest => exact ⟨_, here.choose_spec.1⟩
        -- Before Resume and after its return the chain of calls is empty.
        | resume f prev =>
            rw [here.2.1] at called
            cases called
        | restore f prev =>
            rw [here.2.1] at called
            cases called
        | _ =>
            rw [here.1] at called
            cases called
  obtain ⟨f', inside⟩ := found
  rw [inside.calls] at called
  cases List.mem_singleton.mp called
  exact inside

theorem Good.outside (good : Good r a) (executes : r.executes w = some f) (calls : a.calls w = [])
    (w' : Worker) : f ∉ a.calls w' := by
  intro called
  cases good.unique _ _ _ executes (good.called called).executes
  rw [calls] at called
  cases called

variable [DecidableEq Worker]

theorem settle_fiber (w : Worker) (task : Task Worker Fiber) :
    (Runtime.settle w task).fiber = task.fiber := by
  unfold Runtime.settle
  split <;> rfl

theorem settle_other {task : Task Worker Fiber} (other : task.after ≠ some w) :
    Runtime.settle w task = task :=
  if_neg other

theorem settle_after (w : Worker) (task : Task Worker Fiber) :
    (Runtime.settle w task).after ≠ some w := by
  unfold Runtime.settle
  split
  · simp
  · assumption

theorem mem_settled {tasks : List (Task Worker Fiber)} {task : Task Worker Fiber}
    (held : ∀ other ∈ tasks, other.fiber = task.fiber → other.after ≠ some w) :
    task ∈ tasks.map (Runtime.settle w) ↔ task ∈ tasks := by
  constructor
  · intro inside
    obtain ⟨other, pending, rfl⟩ := List.mem_map.mp inside
    rw [settle_other (held other pending (settle_fiber w other).symm)]
    exact pending
  · intro pending
    exact List.mem_map.mpr ⟨task, pending, settle_other (held task pending rfl)⟩

theorem stops_executing {w' : Worker} {f' : Fiber}
    (now : (r.setExecutes w none).executes w' = some f') : w' ≠ w ∧ r.executes w' = some f' := by
  by_cases same : w' = w
  · subst same
    simp [Runtime.setExecutes] at now
  · exact ⟨same, by simpa [Runtime.setExecutes, same] using now⟩

theorem starts_executing (idle : ∀ w', r.executes w' ≠ some f) {w' : Worker} {g : Fiber}
    (now : (r.setExecutes w (some f)).executes w' = some g) :
    (w' = w ∧ g = f) ∨ (w' ≠ w ∧ g ≠ f ∧ r.executes w' = some g) := by
  by_cases same : w' = w
  · subst same
    exact .inl ⟨rfl, by simpa [Runtime.setExecutes, eq_comm] using now⟩
  · have before : r.executes w' = some g := by simpa [Runtime.setExecutes, same] using now
    exact .inr ⟨same, fun eq => idle w' (eq ▸ before), before⟩

theorem idle_before (executes : r.executes w = some f) {g : Fiber} (other : g ≠ f)
    (idle : ∀ w', (r.setExecutes w none).executes w' ≠ some g) (w' : Worker) :
    r.executes w' ≠ some g := by
  intro now
  by_cases same : w' = w
  · subst same
    cases executes.symm.trans now
    exact other rfl
  · exact idle w' (by simpa [Runtime.setExecutes, same] using now)

variable [DecidableEq Fiber] {e : Event Fiber (Code Fiber K) Empty}
  {there : Position Fiber (Code Fiber K) Empty} {k : Code Fiber K}

theorem after_thread (own : a.inControl w = .thread w) (f : Fiber) :
    (a.after w e there).position (.coroutine f) = a.position (.coroutine f) :=
  after_other (by rw [own]; simp)

theorem after_fiber (own : a.inControl w = .coroutine f) :
    (a.after w e there).position (.thread w) = a.position (.thread w) :=
  Function.update_of_ne (by rw [own]; simp) ..

theorem after_calls (going : a.ended w = none) (stays : e.resumes = none) :
    (a.after w e there).calls w = a.calls w := by
  simp [Asymmetric.State.after, callsAfter_stays _ stays, Asymmetric.State.held, going]

theorem placed_goto (going : a.ended w = none)
    (here : Here r' (a.after w (.act (.segment k)) (.code k)) w k) :
    Placed r' (a.after w (.act (.segment k)) (.code k)) w := by
  have unended : (a.after w (.act (.segment k)) (.code k)).ended w = none := by
    cases body : a.inControl w <;>
      simp [Asymmetric.State.after, body, Event.ending, Event.suspends, Position.isOver]
  have control : (a.after w (.act (.segment k)) (.code k)).inControl w = a.inControl w := by
    unfold Asymmetric.State.inControl Asymmetric.State.held
    rw [after_calls going rfl, unended, going]
  refine .code unended ?_ here
  rw [control]
  exact Function.update_self ..

theorem Good.enter (good : Good r a) (going : a.ended w = none)
    (here : Here r a w (.dispatch f)) :
    Good (r.setCurrentFiber w (some f))
      (a.after w (.act (.segment (.resume f (r.currentFiber w))))
        (.code (.resume f (r.currentFiber w)))) := by
  obtain ⟨calls, current, executes, alone, k, point⟩ := here
  have own := control_thread calls
  refine good.quiet rfl rfl rfl rfl ?_ (placed_goto going ?_)
  · intro w' different
    simp [Runtime.setCurrentFiber, different]
  · exact ⟨current, (after_calls going rfl).trans calls, by simp [Runtime.setCurrentFiber],
      executes, alone.moved rfl, k, (after_thread own f).trans point⟩

theorem Good.restore (good : Good r a) (going : a.ended w = none) {prev : Option Fiber}
    (here : Here r a w (.restore f prev)) :
    Good (r.setCurrentFiber w prev)
      (a.after w (.act (.segment (.check f))) (.code (.check f))) := by
  obtain ⟨rfl, calls, current, executes, result⟩ := here
  have own := control_thread calls
  refine good.quiet rfl rfl rfl rfl ?_ (placed_goto going ?_)
  · intro w' different
    simp [Runtime.setCurrentFiber, different]
  · exact ⟨(after_calls going rfl).trans calls, by simp [Runtime.setCurrentFiber], executes,
      result.moved (after_thread own f) rfl⟩

theorem Good.resume (good : Good r a) (going : a.ended w = none) {prev : Option Fiber}
    (here : Here r a w (.resume f prev)) :
    Good r (a.after w (.act (.resume f (.restore f prev))) (.waiting f (.restore f prev))) := by
  obtain ⟨rfl, calls, current, executes, alone, k, point⟩ := here
  have own := control_thread calls
  have fiber (there : Position Fiber (Code Fiber K) Empty) :
      (a.after w (.act (.resume f (.restore f none))) there).position (.coroutine f) =
        .code (.routine k) := (after_thread own f).trans point
  have placed : Placed r
      (a.after w (.act (.resume f (.restore f none))) (.waiting f (.restore f none))) w := by
    generalize next : a.after w (.act (.resume f (.restore f none)))
      (.waiting f (.restore f none)) = a'
    have called : a'.calls w = [f] := by
      simp [← next, Asymmetric.State.after, Asymmetric.State.held, going, calls, Event.callsAfter]
    have unended : a'.ended w = none := by
      simp [← next, Asymmetric.State.after, own, Event.ending]
    have waits : a'.position (.thread w) = .waiting f (.restore f none) := by
      simp [← next, Asymmetric.State.after, own]
    have inside : Inside r a' w f := ⟨called, waits, current, executes⟩
    have here : Here r a' w (.routine k) := ⟨f, inside, alone⟩
    exact .code unended (inside.control unended ▸ next ▸ fiber _) here
  exact good.quiet rfl rfl rfl rfl (fun _ _ => rfl) placed

theorem Good.resumed (good : Good r a) {thrown : Option Empty} (ended : a.ended w = some thrown)
    (inside : Inside r a w f) (result : Result r a w f) :
    Good r (a.after w (.resumed f thrown) (.code (.restore f none))) := by
  have own := inside.control_back ended
  have placed : Placed r (a.after w (.resumed f thrown) (.code (.restore f none))) w := by
    have result : Result r (a.after w (.resumed f thrown) (.code (.restore f none))) w f :=
      result.moved (after_thread own f) rfl
    generalize next : a.after w (.resumed f thrown) (.code (.restore f none)) = a' at result
    have calls : a'.calls w = [] := by
      simp [← next, Asymmetric.State.after, Asymmetric.State.held, ended, inside.calls,
        Event.callsAfter]
    have unended : a'.ended w = none := by
      simp [← next, Asymmetric.State.after, own, Event.ending]
    have point : a'.position (a'.inControl w) = .code (.restore f none) := by
      rw [control_thread calls]
      simp [← next, Asymmetric.State.after, own]
    have here : Here r a' w (.restore f none) :=
      ⟨rfl, calls, inside.current, inside.executes, result⟩
    exact .code unended point here
  exact good.quiet rfl rfl rfl rfl (fun _ _ => rfl) placed

theorem Good.segment (good : Good r a) (going : a.ended w = none) {k rest : K}
    (here : Here r a w (.routine k)) :
    Good r (a.after w (.act (.segment (.routine rest))) (.code (.routine rest))) := by
  obtain ⟨f, inside, alone⟩ := here
  exact good.quiet rfl rfl rfl rfl (fun _ _ => rfl) (placed_goto going
    ⟨f, inside.moved (after_calls going rfl) (after_fiber (inside.control going)) rfl rfl, alone⟩)

theorem Good.back (good : Good r a) (going : a.ended w = none)
    {e : Event Fiber (Code Fiber K) Empty} {there : Position Fiber (Code Fiber K) Empty}
    (inside : Inside r a w f) (stays : e.resumes = none)
    (stops : (e.suspends || there.isOver) = true) (quiet : there.thrown = none)
    (result : Result r (a.after w e there) w f) : Good r (a.after w e there) := by
  have own := inside.control going
  have ended : (a.after w e there).ended w = some none := by
    have ending : e.ending there (a.inControl w) = some there.thrown := by
      rw [own]
      exact if_pos stops
    simp [Asymmetric.State.after, ending, quiet]
  exact good.quiet rfl rfl rfl rfl (fun _ _ => rfl)
    (.back ended (inside.moved (after_calls going stays) (after_fiber own) rfl rfl) result)

theorem Good.suspend (good : Good r a) (going : a.ended w = none) {rest : K}
    (here : Here r a w (.suspend rest)) :
    Good r (a.after w (.act (.suspend (.routine rest))) (.code (.routine rest))) := by
  obtain ⟨f, inside, yielded⟩ := here
  exact good.back going inside rfl rfl rfl (.yielded (after_own (inside.control going)) yielded)

theorem Good.finish (good : Good r a) (going : a.ended w = none) {k : K}
    (here : Here r a w (.routine k)) : Good r (a.after w (.act .finish) .finished) := by
  obtain ⟨f, inside, alone⟩ := here
  exact good.back going inside rfl rfl rfl (.returned (after_own (inside.control going)) alone)

theorem Good.placed_after (good : Good r a) (placed : Placed r' (a.after w e there) w)
    (spared : ∀ w', w' ≠ w → Spared r r' w') (w' : Worker) : Placed r' (a.after w e there) w' := by
  by_cases same : w' = w
  · exact same ▸ placed
  · exact (good.placed w').kept (good.kept same (spared w' same))

theorem Good.rested_after (good : Good r a) {f : Fiber} (alive : r.life f ≠ .destroyed)
    (idle : ∀ w, r.executes w ≠ some f) : Resumable (a.after w e there) f := by
  obtain ⟨k, point⟩ := good.rested f alive idle
  exact ⟨k, (good.position_other idle).trans point⟩

theorem Good.released_after (good : Good r a) {f : Fiber} (destroyed : r.life f = .destroyed) :
    r.fiberStack f = none ∧ (a.after w e there).position (.coroutine f) = .finished := by
  obtain ⟨stack, finished⟩ := good.released f destroyed
  exact ⟨stack, (good.position_other (good.destroyed_idle destroyed)).trans finished⟩

theorem Good.checkCompleted (good : Good r a) (going : a.ended w = none)
    (here : Here r a w (.check f)) (ends : (a.position (.coroutine f)).isOver = true) :
    Good r (a.after w (.act (.segment (.release f))) (.code (.release f))) := by
  obtain ⟨calls, current, executes, result⟩ := here
  have own := control_thread calls
  cases result with
  | yielded point _ =>
      rw [point] at ends
      cases ends
  | returned point alone =>
      exact good.quiet rfl rfl rfl rfl (fun _ _ => rfl) (placed_goto going
        ⟨(after_calls going rfl).trans calls, current, executes,
          (after_thread own f).trans point, alone⟩)

theorem Good.checkYielded (good : Good r a) (going : a.ended w = none)
    (here : Here r a w (.check f)) (unfinished : (a.position (.coroutine f)).isOver = false) :
    Good (r.setExecutes w none) (a.after w (.act (.segment .returned)) (.code .returned)) := by
  obtain ⟨calls, current, executes, result⟩ := here
  have own := control_thread calls
  cases result with
  | returned point _ =>
      rw [point] at unfinished
      cases unfinished
  | @yielded k point yielded =>
      refine ⟨good.placed_after ?_ ?_, good.nodup, good.live, ?_, ?_, ?_, ?_, ?_,
        fun g destroyed => good.released_after destroyed⟩
      · exact placed_goto going ⟨(after_calls going rfl).trans calls, current, by
          simp [Runtime.setExecutes]⟩
      · intro w' different
        exact ⟨rfl, by simp [Runtime.setExecutes, different], fun _ _ => .rfl, fun _ _ => .rfl,
          fun _ built => built, fun _ _ => rfl⟩
      · exact fun task pending w' now => good.held task pending w' (stops_executing now).2
      · exact fun w' f' now => good.executing w' f' (stops_executing now).2
      · exact fun w₁ w₂ f' one two =>
          good.unique w₁ w₂ f' (stops_executing one).2 (stops_executing two).2
      -- The future of the fiber passes from this worker to the task that Yield submitted.
      · intro g scheduled
        rcases good.covered g scheduled with pending | ⟨w', now⟩
        · exact .inl pending
        · by_cases same : w' = w
          · subst same
            cases executes.symm.trans now
            exact .inl ⟨_, yielded.submitted, rfl⟩
          · exact .inr ⟨w', by simpa [Runtime.setExecutes, same] using now⟩
      · intro g alive idle
        by_cases same : g = f
        · subst same
          exact ⟨k, (after_thread own g).trans point⟩
        · exact good.rested_after alive (idle_before executes same idle)

theorem Good.release (good : Good r a) (going : a.ended w = none)
    (here : Here r a w (.release f)) (stack : ℕ) :
    Good (r.releaseStack w f stack)
      (a.after w (.act (.segment (.delete f))) (.code (.delete f))) := by
  obtain ⟨calls, current, executes, finished, alone⟩ := here
  have own := control_thread calls
  refine ⟨good.placed_after ?_ ?_, good.nodup, good.live, good.held, good.executing, good.unique,
    good.covered, fun g alive idle => good.rested_after alive idle, ?_⟩
  · exact placed_goto going ⟨(after_calls going rfl).trans calls, current, executes,
      (after_thread own f).trans finished, alone.moved rfl, by simp [Runtime.releaseStack]⟩
  · intro w' different
    refine ⟨rfl, rfl, fun _ _ => .rfl, fun _ _ => .rfl, fun _ built => built, fun g now => ?_⟩
    -- Another worker executes another fiber, whose stack is not touched.
    have other : g ≠ f := by
      rintro rfl
      exact different (good.unique _ _ _ now executes)
    simp [Runtime.releaseStack, other]
  · intro g destroyed
    obtain ⟨stack, finished⟩ : r.fiberStack g = none ∧
        (a.after w (.act (.segment (.delete f))) (.code (.delete f))).position (.coroutine g) =
          .finished := good.released_after destroyed
    refine ⟨?_, finished⟩
    by_cases same : g = f
    · simp [Runtime.releaseStack, same]
    · simpa [Runtime.releaseStack, same] using stack

theorem Good.delete (good : Good r a) (going : a.ended w = none) (here : Here r a w (.delete f)) :
    Good ((r.setLife f .destroyed).setExecutes w none)
      (a.after w (.act (.segment .returned)) (.code .returned)) := by
  obtain ⟨calls, current, executes, finished, alone, stack⟩ := here
  have own := control_thread calls
  have still {g : Fiber} (other : g ≠ f) :
      ((r.setLife f .destroyed).setExecutes w none).life g = r.life g := by
    simp [Runtime.setExecutes, Runtime.setLife, other]
  have idle {g : Fiber} (other : g ≠ f) (idle : ∀ w',
      ((r.setLife f .destroyed).setExecutes w none).executes w' ≠ some g) :
      ∀ w', r.executes w' ≠ some g := idle_before (r := r.setLife f .destroyed) executes other idle
  refine ⟨good.placed_after ?_ ?_, good.nodup, ?_, ?_, ?_, ?_, ?_, ?_, ?_⟩
  · exact placed_goto going ⟨(after_calls going rfl).trans calls, current, by
      simp [Runtime.setExecutes]⟩
  · intro w' different
    refine ⟨rfl, by simp [Runtime.setExecutes, Runtime.setLife, different], fun _ _ => .rfl,
      fun _ _ => .rfl, fun g built => ?_, fun _ _ => rfl⟩
    rw [still ?_]
    · exact built
    · rintro rfl
      rw [good.executing w g executes] at built
      cases built
  -- No task refers to the fiber any more, so the tasks live on.
  · intro task pending
    rw [still (alone.none_of task pending)]
    exact good.live task pending
  · exact fun task pending w' now => good.held task pending w' (stops_executing now).2
  · intro w' f' now
    obtain ⟨different, now⟩ := stops_executing now
    rw [still ?_]
    · exact good.executing w' f' now
    · rintro rfl
      exact different (good.unique _ _ _ now executes)
  · exact fun w₁ w₂ f' one two =>
      good.unique w₁ w₂ f' (stops_executing one).2 (stops_executing two).2
  · intro g scheduled
    have other : g ≠ f := by
      rintro rfl
      simp [Runtime.setExecutes, Runtime.setLife] at scheduled
    rw [still other] at scheduled
    rcases good.covered g scheduled with pending | ⟨w', now⟩
    · exact .inl pending
    · refine .inr ⟨w', ?_⟩
      have different : w' ≠ w := by
        rintro rfl
        cases executes.symm.trans now
        exact other rfl
      simpa [Runtime.setExecutes, Runtime.setLife, different] using now
  · intro g alive unexecuted
    have other : g ≠ f := by
      rintro rfl
      simp [Runtime.setExecutes, Runtime.setLife] at alive
    rw [still other] at alive
    exact good.rested_after alive (idle other unexecuted)
  · intro g destroyed
    by_cases same : g = f
    · subst same
      exact ⟨stack, (after_thread own g).trans finished⟩
    · rw [still same] at destroyed
      exact good.released_after destroyed

theorem Good.leave (good : Good r a) (going : a.ended w = none) (here : Here r a w .returned) :
    Good (r.setTasks (r.tasks.map (Runtime.settle w)))
      (a.after w (.act (.segment .idle)) (.code .idle)) := by
  obtain ⟨calls, current, executes⟩ := here
  have busy {w' : Worker} {f' : Fiber} (now : r.executes w' = some f') : w' ≠ w := by
    rintro rfl
    cases executes.symm.trans now
  have settled {task : Task Worker Fiber} (inside : task ∈ r.tasks.map (Runtime.settle w)) :
      ∃ before ∈ r.tasks, task = Runtime.settle w before ∧ task.fiber = before.fiber := by
    obtain ⟨before, pending, rfl⟩ := List.mem_map.mp inside
    exact ⟨before, pending, rfl, settle_fiber w before⟩
  refine ⟨good.placed_after ?_ ?_, ?_, ?_, ?_, good.executing, good.unique, ?_,
    fun g alive idle => good.rested_after alive idle,
    fun g destroyed => good.released_after destroyed⟩
  · refine placed_goto going ⟨(after_calls going rfl).trans calls, current, executes, ?_⟩
    intro task inside
    obtain ⟨before, _, rfl, _⟩ := settled inside
    exact settle_after w before
  · intro w' different
    refine ⟨rfl, rfl, fun task after => ?_, fun task now => ?_, fun _ built => built,
      fun _ _ => rfl⟩
    · constructor
      · intro inside
        obtain ⟨before, pending, rfl⟩ := List.mem_map.mp inside
        by_cases own : before.after = some w
        · rw [Runtime.settle, if_pos own] at after
          cases after
        · rwa [settle_other own]
      · intro pending
        refine List.mem_map.mpr ⟨task, pending, settle_other ?_⟩
        rw [after]
        exact fun same => different (Option.some.inj same)
    -- A task of a fiber that another worker executes waits for that worker.
    · refine mem_settled fun other pending same after => ?_
      have holder := good.held other pending w' (same ▸ now)
      exact different (Option.some.inj (holder.symm.trans after))
  · have fibers : (r.tasks.map (Runtime.settle w)).map Task.fiber = r.tasks.map Task.fiber := by
      simp [settle_fiber]
    exact fibers ▸ good.nodup
  · intro task inside
    obtain ⟨before, pending, _, same⟩ := settled inside
    exact same ▸ good.live before pending
  · intro task inside w' now
    obtain ⟨before, pending, same, fiber⟩ := settled inside
    have holder := good.held before pending w' (fiber ▸ now)
    have other : before.after ≠ some w := by
      rw [holder]
      exact fun eq => busy now (Option.some.inj eq)
    rw [same, settle_other other]
    exact holder
  · intro g scheduled
    rcases good.covered g scheduled with ⟨task, pending, same⟩ | executing
    · exact .inl ⟨_, List.mem_map_of_mem pending, (settle_fiber w task).trans same⟩
    · exact .inr executing

theorem mem_taken (good : Good r a) {after : Option Worker} (pending : ⟨f, after⟩ ∈ r.tasks)
    {task : Task Worker Fiber} :
    task ∈ r.tasks.erase ⟨f, after⟩ ↔ task.fiber ≠ f ∧ task ∈ r.tasks := by
  have distinct : r.tasks.Nodup := good.nodup.of_map _
  rw [distinct.mem_erase_iff]
  constructor
  · rintro ⟨other, inside⟩
    exact ⟨fun same => other (nodup_fiber good inside pending same), inside⟩
  · rintro ⟨other, inside⟩
    exact ⟨fun same => other (congrArg Task.fiber same), inside⟩

theorem Good.take (good : Good r a) (going : a.ended w = none) (here : Here r a w .idle)
    (pending : ⟨f, none⟩ ∈ r.tasks) :
    Good ((r.setTasks (r.tasks.erase ⟨f, none⟩)).setExecutes w (some f))
      (a.after w (.act (.segment (.dispatch f))) (.code (.dispatch f))) := by
  obtain ⟨calls, current, executes, quiet⟩ := here
  have own := control_thread calls
  have scheduled : r.life f = .scheduled := good.live _ pending
  -- The task is available, so it waits for no worker: nobody executes its fiber.
  have idle (w' : Worker) : r.executes w' ≠ some f := fun now => by
    cases good.held _ pending w' now
  have others {task : Task Worker Fiber} :
      task ∈ r.tasks.erase ⟨f, none⟩ ↔ task.fiber ≠ f ∧ task ∈ r.tasks := mem_taken good pending
  have now {w' : Worker} {g : Fiber} (executing : ((r.setTasks
      (r.tasks.erase ⟨f, none⟩)).setExecutes w (some f)).executes w' = some g) :
      (w' = w ∧ g = f) ∨ (w' ≠ w ∧ g ≠ f ∧ r.executes w' = some g) :=
    starts_executing (r := r.setTasks (r.tasks.erase ⟨f, none⟩)) idle executing
  refine ⟨good.placed_after ?_ ?_, ?_, ?_, ?_, ?_, ?_, ?_, ?_,
    fun g destroyed => good.released_after destroyed⟩
  · obtain ⟨k, point⟩ := good.rested f (by simp [scheduled]) idle
    refine placed_goto going ⟨(after_calls going rfl).trans calls, current,
      by simp [Runtime.setExecutes], ⟨?_, ?_⟩, k, (after_thread own f).trans point⟩
    · exact fun task inside => (others.mp inside).1
    · exact fun task inside => quiet task (others.mp inside).2
  · intro w' different
    refine ⟨rfl, by simp [Runtime.setExecutes, Runtime.setTasks, different], fun task after => ?_,
      fun task executing => ?_, fun _ built => built, fun _ _ => rfl⟩
    · refine ⟨fun inside => (others.mp inside).2, fun inside => others.mpr ⟨?_, inside⟩⟩
      intro same
      cases nodup_fiber good inside pending same
      cases after
    · exact ⟨fun inside => (others.mp inside).2,
        fun inside => others.mpr ⟨fun same => idle w' (same ▸ executing), inside⟩⟩
  · exact good.nodup.sublist (List.erase_sublist.map Task.fiber)
  · exact fun task inside => good.live task (others.mp inside).2
  · intro task inside w' executing
    obtain ⟨other, before⟩ := others.mp inside
    rcases now executing with ⟨_, same⟩ | ⟨_, _, held⟩
    · exact absurd same other
    · exact good.held task before w' held
  · intro w' g executing
    rcases now executing with ⟨_, rfl⟩ | ⟨_, _, before⟩
    · exact scheduled
    · exact good.executing w' g before
  -- Only this worker executes the fiber taken.
  · intro w₁ w₂ g one two
    rcases now one with ⟨rfl, rfl⟩ | ⟨_, other, before⟩ <;>
      rcases now two with ⟨rfl, same⟩ | ⟨_, other', before'⟩
    · rfl
    · exact absurd rfl other'
    · exact absurd same other
    · exact good.unique w₁ w₂ g before before'
  · intro g alive
    by_cases same : g = f
    · exact .inr ⟨w, by simp [Runtime.setExecutes, same]⟩
    · rcases good.covered g alive with ⟨task, inside, refers⟩ | ⟨w', before⟩
      · exact .inl ⟨task, others.mpr ⟨refers ▸ same, inside⟩, refers⟩
      · have different : w' ≠ w := by
          rintro rfl
          cases executes.symm.trans before
        exact .inr ⟨w', by simpa [Runtime.setExecutes, Runtime.setTasks, different] using before⟩
  · intro g alive unexecuted
    refine good.rested_after alive fun w' before => ?_
    have different : w' ≠ w := by
      rintro rfl
      cases executes.symm.trans before
    exact unexecuted w'
      (by simpa [Runtime.setExecutes, Runtime.setTasks, different] using before)

theorem Good.schedule (good : Good r a) (going : a.ended w = none) {g : Fiber} {rest : K}
    (here : Here r a w (.schedule g rest)) :
    Good ((r.submit g none).setLife g .scheduled)
      (a.after w (.act (.segment (.routine rest))) (.code (.routine rest))) := by
  obtain ⟨f, inside, alone, built⟩ := here
  refine good.scheduled built (good.placed_after ?_ ?_) fun _ idle => good.position_other idle
  · refine placed_goto going ⟨f, inside.moved (after_calls going rfl)
      (after_fiber (inside.control going)) rfl rfl, ?_, ?_⟩
    · intro task pending
      rcases mem_submit.mp pending with before | rfl
      · exact alone.none_of task before
      · rintro rfl
        rw [good.executing w g inside.executes] at built
        cases built
    · intro task pending
      rcases mem_submit.mp pending with before | rfl
      · exact alone.none_after task before
      · simp
  · exact fun w' different => good.spared_scheduled built fun same =>
      different (Option.some.inj same).symm

theorem Good.yield (good : Good r a) (going : a.ended w = none) {k rest : K}
    (here : Here r a w (.routine k)) (current : r.currentFiber w = some f) :
    Good (r.submit f (some w))
      (a.after w (.act (.segment (.suspend rest))) (.code (.suspend rest))) := by
  obtain ⟨f', inside, alone⟩ := here
  cases inside.current.symm.trans current
  have scheduled := good.executing w f inside.executes
  refine ⟨good.placed_after ?_ ?_, submit_nodup good alone.none_of (some w), ?_, ?_,
    good.executing, good.unique, ?_, fun g alive idle => good.rested_after alive idle,
    fun g destroyed => good.released_after destroyed⟩
  · refine placed_goto going ⟨f, inside.moved (after_calls going rfl)
      (after_fiber (inside.control going)) rfl rfl, mem_submit.mpr (.inr rfl), ?_⟩
    intro task pending after
    rcases mem_submit.mp pending with before | rfl
    · exact absurd after (alone.none_after task before)
    · rfl
  · intro w' different
    refine ⟨rfl, rfl, fun task after => ?_, fun task executes => ?_, fun _ built => built,
      fun _ _ => rfl⟩
    · refine ⟨fun pending => ?_, fun pending => mem_submit.mpr (.inl pending)⟩
      rcases mem_submit.mp pending with before | rfl
      · exact before
      · exact absurd (Option.some.inj after).symm different
    · refine ⟨fun pending => ?_, fun pending => mem_submit.mpr (.inl pending)⟩
      rcases mem_submit.mp pending with before | rfl
      · exact before
      · exact absurd (good.unique _ _ _ executes inside.executes) different
  · intro task pending
    rcases mem_submit.mp pending with before | rfl
    · exact good.live task before
    · exact scheduled
  -- The new task waits for the one worker that executes its fiber.
  · intro task pending w' executes
    rcases mem_submit.mp pending with before | rfl
    · exact good.held task before w' executes
    · exact congrArg some (good.unique _ _ _ inside.executes executes)
  · intro g alive
    rcases good.covered g alive with ⟨task, pending, refers⟩ | executing
    · exact .inl ⟨task, mem_submit.mpr (.inl pending), refers⟩
    · exact .inr executing

theorem born_acquired (r : Runtime Worker Fiber) (w : Worker) (g : Fiber)
    (builder : Option Worker) :
    Born r ((r.acquireStack w g).setLife g (.built builder)) g builder := by
  unfold Runtime.acquireStack
  split <;> exact ⟨rfl, rfl, rfl, rfl, fun f other => by simp [Runtime.setLife, other],
    by simp [Runtime.setLife]⟩

theorem Good.spawn (good : Good r a) (going : a.ended w = none) {k rest : K}
    (here : Here r a w (.routine k)) {g : Fiber} (unborn : r.life g = .unborn)
    (born : Born r r' g (some w)) :
    Good r' (a.after w (.act (.segment (.schedule g rest))) (.code (.schedule g rest))) := by
  obtain ⟨f, inside, alone⟩ := here
  refine good.born unborn born (good.placed_after ?_ fun w' _ => good.spared_born unborn born w')
    fun _ idle => good.position_other idle
  refine placed_goto going ⟨f, inside.moved (after_calls going rfl)
    (after_fiber (inside.control going)) born.current born.executes, alone.moved born.tasks, ?_⟩
  rw [born.life, Function.update_self]

theorem Good.constructs (good : Good r a) {g : Fiber} (alive : r.life g ≠ .destroyed)
    (idle : ∀ w, r.executes w ≠ some g) (k : K) :
    Good r { a with
      position := Function.update a.position (.coroutine g) (.code (.routine k)) } := by
  have still {f : Fiber} (other : f ≠ g) :
      Function.update a.position (.coroutine g) (.code (.routine k)) (.coroutine f) =
        a.position (.coroutine f) := Function.update_of_ne (by simpa using other) ..
  refine ⟨fun w => (good.placed w).kept ⟨Spared.refl r w, rfl, rfl, ?_, fun f executes => ?_⟩,
    good.nodup, good.live, good.held, good.executing, good.unique, good.covered, ?_, ?_⟩
  · have other : (.thread w : Body Worker Fiber) ≠ .coroutine g := by simp
    change Function.update a.position (.coroutine g) (.code (.routine k)) (.thread w) = _
    exact Function.update_of_ne other ..
  · exact still fun same => idle w (same ▸ executes)
  · intro f lives unexecuted
    by_cases same : f = g
    · subst same
      exact ⟨k, Function.update_self ..⟩
    · obtain ⟨k', point⟩ := good.rested f lives unexecuted
      exact ⟨k', (still same).trans point⟩
  · intro f destroyed
    have other : f ≠ g := fun same => alive (same ▸ destroyed)
    obtain ⟨stack, finished⟩ := good.released f destroyed
    exact ⟨stack, (still other).trans finished⟩

end Statements

end ConcurrencyCourse.Fibers
