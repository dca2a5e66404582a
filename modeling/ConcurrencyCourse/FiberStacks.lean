import ConcurrencyCourse.Fibers
import ConcurrencyCourse.StackPool

/-!
The stacks of the fibers. What the fibers do with stacks is a run of the stack pool, in
which the threads are the workers and the outside. So every stack has one owner in the
runtime as well: a fiber that has not released it, or a slot in the pool of one worker.
-/

namespace ConcurrencyCourse.Fibers

open Interleaving

variable {Worker Fiber K : Type*}

inductive StackCall where
  | acquireStack
  | releaseStack

def Statement.stackCall : Statement Fiber K → Option StackCall
  | .spawn .. => some .acquireStack
  | .release _ => some .releaseStack
  | _ => none

def Label.stackCall : Label Worker Fiber K → Option (Option Worker × StackCall)
  | .statement w executed => executed.stackCall.map (some w, ·)
  | .outsideSpawn .. => some (none, .acquireStack)
  | _ => none

def stackCallOf : Option Worker × StackPool.Op → Option Worker × StackCall
  | (t, .spawn) => (t, .acquireStack)
  | (t, .destroy _) => (t, .releaseStack)

/-- One fiber has the stack and no pool does, or no fiber has it and one slot of one
worker's pool does. -/
def Runtime.OneOwner (r : Runtime Worker Fiber) (stack : ℕ) : Prop :=
  ((∃! f, r.fiberStack f = some stack) ∧ ∀ w, stack ∉ r.pool w) ∨
    (∀ f, r.fiberStack f ≠ some stack) ∧
      ∃! slot : Worker × ℕ, (r.pool slot.1)[slot.2]? = some stack

/-- The stacks of the runtime are where the stack pool has them. The stack pool knows a
fiber by its number, and takes stacks from the back of a pool. -/
structure Represents (number : Fiber → ℕ) (r : Runtime Worker Fiber)
    (p : StackPool.State (Option Worker)) : Prop where
  created : p.created = r.allocated
  pool : ∀ w, p.pool (some w) = (r.pool w).reverse
  outside : p.pool none = []
  live : ∀ entry, entry ∈ p.live ↔
    ∃ f, number f = entry.number ∧ r.fiberStack f = some entry.stack
  numbered : ∀ f stack, r.fiberStack f = some stack → number f < p.spawned
  apart : ∀ f g stack, r.fiberStack f = some stack → r.fiberStack g = some stack →
    number f = number g → f = g
  unborn : ∀ f, r.life f = .unborn → r.fiberStack f = none

section Owners
variable {number : Fiber → ℕ} {r : Runtime Worker Fiber} {p : StackPool.State (Option Worker)}
  {stack : ℕ}

theorem Represents.mem_pool (rep : Represents number r p) {w : Worker} :
    stack ∈ p.pool (some w) ↔ stack ∈ r.pool w := by
  rw [rep.pool, List.mem_reverse]

theorem Represents.mem_inUse (rep : Represents number r p) :
    stack ∈ p.inUse ↔ ∃ f, r.fiberStack f = some stack := by
  constructor
  · intro used
    obtain ⟨entry, live, rfl⟩ := List.mem_map.mp used
    obtain ⟨f, _, holds⟩ := (rep.live entry).mp live
    exact ⟨f, holds⟩
  · rintro ⟨f, holds⟩
    exact List.mem_map.mpr ⟨⟨number f, stack⟩, (rep.live _).mpr ⟨f, rfl, holds⟩, rfl⟩

theorem Represents.one_holder (rep : Represents number r p) (owned : StackPool.Owned p)
    {f g : Fiber} (holds : r.fiberStack f = some stack) (also : r.fiberStack g = some stack) :
    f = g := by
  have first : ⟨number f, stack⟩ ∈ p.live := (rep.live _).mpr ⟨f, rfl, holds⟩
  have second : ⟨number g, stack⟩ ∈ p.live := (rep.live _).mpr ⟨g, rfl, also⟩
  have same := List.inj_on_of_nodup_map owned.inUse first second rfl
  exact rep.apart f g stack holds also (congrArg StackPool.Fiber.number same)

theorem Represents.one_owner (rep : Represents number r p) (owned : StackPool.Owned p)
    (allocated : stack < r.allocated) : r.OneOwner stack := by
  rw [← rep.created, owned.created] at allocated
  rcases allocated with used | ⟨t, pooled⟩
  · obtain ⟨f, holds⟩ := rep.mem_inUse.mp used
    refine .inl ⟨⟨f, holds, fun g also => rep.one_holder owned also holds⟩, fun w pooled => ?_⟩
    exact owned.apart (some w) stack (rep.mem_pool.mpr pooled) used
  · cases t with
    -- A call from outside never leaves a stack on a pool.
    | none =>
        rw [rep.outside] at pooled
        cases pooled
    | some w =>
        refine .inr ⟨fun f holds => owned.apart _ stack pooled (rep.mem_inUse.mpr ⟨f, holds⟩), ?_⟩
        refine StackPool.one_slot (fun w => ?_) (fun w w' other here there => ?_)
          (rep.mem_pool.mp pooled)
        · have distinct := owned.pooled (some w)
          rwa [rep.pool, List.nodup_reverse] at distinct
        · exact Option.some.inj
            (owned.single _ _ other (rep.mem_pool.mpr here) (rep.mem_pool.mpr there))

theorem Represents.held_lt (rep : Represents number r p) (owned : StackPool.Owned p) {f : Fiber}
    (holds : r.fiberStack f = some stack) : stack < r.allocated := by
  rw [← rep.created, owned.created]
  exact .inl (rep.mem_inUse.mpr ⟨f, holds⟩)

end Owners

section Steps
variable {number : Fiber → ℕ} {r r' : Runtime Worker Fiber}
  {p : StackPool.State (Option Worker)} {w : Worker} {f : Fiber} {stack : ℕ}

theorem Represents.quiet (rep : Represents number r p) (held : r'.fiberStack = r.fiberStack)
    (pool : r'.pool = r.pool) (allocated : r'.allocated = r.allocated)
    (unborn : ∀ f, r'.life f = .unborn → r.life f = .unborn) : Represents number r' p := by
  refine ⟨?_, ?_, rep.outside, ?_, ?_, ?_, fun f fresh => ?_⟩
  · rw [allocated, rep.created]
  · rw [pool]
    exact rep.pool
  · rw [held]
    exact rep.live
  · rw [held]
    exact rep.numbered
  · rw [held]
    exact rep.apart
  · rw [held]
    exact rep.unborn f (unborn f fresh)

variable [DecidableEq Fiber]

theorem unborn_setLife {life : Life Worker} (alive : life ≠ .unborn) (g : Fiber)
    (unborn : (r.setLife f life).life g = .unborn) : r.life g = .unborn := by
  by_cases same : g = f
  · subst same
    exact absurd ((Function.update_self ..).symm.trans unborn) alive
  · exact (Function.update_of_ne same ..).symm.trans unborn

theorem holds_given {g : Fiber} {other : ℕ} :
    Function.update r.fiberStack f (some stack) g = some other ↔
      g = f ∧ stack = other ∨ g ≠ f ∧ r.fiberStack g = some other := by
  by_cases same : g = f
  · subst same
    simp
  · simp [same]

theorem holds_left {g : Fiber} {other : ℕ} :
    Function.update r.fiberStack f none g = some other ↔
      g ≠ f ∧ r.fiberStack g = some other := by
  by_cases same : g = f
  · subst same
    simp
  · simp [same]

theorem Represents.born (rep : Represents number r p) {p' : StackPool.State (Option Worker)}
    {builder : Option Worker} (unborn : r.life f = .unborn) (live : p'.live = p.live)
    (spawned : p'.spawned = p.spawned) (created : p'.created = r'.allocated)
    (pool : ∀ w, p'.pool (some w) = (r'.pool w).reverse) (outside : p'.pool none = [])
    (held : r'.fiberStack = Function.update r.fiberStack f (some stack))
    (life : r'.life = r.life) :
    Represents (Function.update number f p.spawned) (r'.setLife f (.built builder))
      (StackPool.born p' stack) := by
  have older {g : Fiber} {other : ℕ} (holds : r.fiberStack g = some other) : g ≠ f := by
    rintro rfl
    cases (rep.unborn g unborn).symm.trans holds
  have holds {g : Fiber} {other : ℕ} :
      (r'.setLife f (.built builder)).fiberStack g = some other ↔
        g = f ∧ stack = other ∨ g ≠ f ∧ r.fiberStack g = some other := by
    change r'.fiberStack g = some other ↔ _
    rw [held, holds_given]
  refine ⟨created, pool, outside, fun entry => ?_, fun g other has => ?_,
    fun g h other first second same => ?_, fun g fresh => ?_⟩
  · simp only [StackPool.born, List.mem_append, List.mem_singleton, live, rep.live, holds]
    constructor
    -- The numbers given out so far are smaller than the new one.
    · rintro (⟨g, numbered, has⟩ | rfl)
      · exact ⟨g, by rwa [Function.update_of_ne (older has)], .inr ⟨older has, has⟩⟩
      · exact ⟨f, by rw [Function.update_self, spawned], .inl ⟨rfl, rfl⟩⟩
    · rintro ⟨g, numbered, ⟨rfl, rfl⟩ | ⟨other, has⟩⟩
      · rw [Function.update_self] at numbered
        exact .inr (by rw [spawned, numbered])
      · rw [Function.update_of_ne other] at numbered
        exact .inl ⟨g, numbered, has⟩
  · simp only [StackPool.born, spawned]
    rcases holds.mp has with ⟨rfl, rfl⟩ | ⟨apart, has⟩
    · simp
    · rw [Function.update_of_ne apart]
      exact Nat.lt_succ_of_lt (rep.numbered g other has)
  · rcases holds.mp first with ⟨rfl, _⟩ | ⟨apart, has⟩ <;>
      rcases holds.mp second with ⟨rfl, _⟩ | ⟨apart', has'⟩
    · rfl
    · rw [Function.update_self, Function.update_of_ne apart'] at same
      exact absurd same (rep.numbered h other has').ne'
    · rw [Function.update_self, Function.update_of_ne apart] at same
      exact absurd same (rep.numbered g other has).ne
    · rw [Function.update_of_ne apart, Function.update_of_ne apart'] at same
      exact rep.apart g h other has has' same
  · by_cases same : g = f
    · subst same
      exact absurd ((Function.update_self ..).symm.trans fresh) (by simp)
    · have before := rep.unborn g (life ▸ (Function.update_of_ne same ..).symm.trans fresh)
      exact (congrFun held g).trans ((Function.update_of_ne same ..).trans before)

variable [DecidableEq Worker]

/-- The stack pool makes the call of a step, if it makes any. -/
inductive Follows (p : StackPool.State (Option Worker)) (r' : Runtime Worker Fiber) :
    Option (Option Worker × StackCall) → Prop where
  | quiet (number : Fiber → ℕ) (rep : Represents number r' p) : Follows p r' none
  | call (number : Fiber → ℕ) (label : Option Worker × StackPool.Op)
      {p' : StackPool.State (Option Worker)} (taken : StackPool.step p label = some p')
      (rep : Represents number r' p') : Follows p r' (some (stackCallOf label))

theorem Represents.acquireStack (rep : Represents number r p) (unborn : r.life f = .unborn) :
    Follows p ((r.acquireStack w f).setLife f (.built (some w)))
      (some (some w, .acquireStack)) := by
  have pooled := rep.pool w
  cases here : r.pool w with
  -- The pool of the worker is empty: a stack is allocated.
  | nil =>
      rw [here] at pooled
      refine .call (Function.update number f p.spawned) (some w, .spawn) rfl ?_
      rw [StackPool.get_new pooled]
      simp only [Runtime.acquireStack, here]
      exact rep.born unborn rfl rfl (congrArg (· + 1) rep.created) rep.pool rep.outside
        (by rw [rep.created]) rfl
  -- The last released stack is reused; the vector holds it at its back.
  | cons stack rest =>
      rw [here, List.reverse_cons] at pooled
      refine .call (Function.update number f p.spawned) (some w, .spawn) rfl ?_
      rw [StackPool.get_pooled pooled]
      simp only [Runtime.acquireStack, here]
      refine rep.born unborn rfl rfl rep.created (fun w' => ?_) ?_ rfl rfl
      · by_cases own : w' = w
        · subst own
          simp
        · simpa [own] using rep.pool w'
      · simpa using rep.outside

theorem Represents.allocateStack (rep : Represents number r p) (unborn : r.life f = .unborn) :
    Follows p ((r.allocateStack f).setLife f (.built none)) (some (none, .acquireStack)) := by
  refine .call (Function.update number f p.spawned) (none, .spawn) rfl ?_
  rw [StackPool.get_new rep.outside]
  exact rep.born unborn rfl rfl (congrArg (· + 1) rep.created) rep.pool rep.outside
    (by rw [rep.created]; rfl) rfl

theorem Represents.releaseStack (rep : Represents number r p) (owned : StackPool.Owned p)
    (holds : r.fiberStack f = some stack) :
    Follows p (r.releaseStack w f stack) (some (some w, .releaseStack)) := by
  have live : ⟨number f, stack⟩ ∈ p.live := (rep.live _).mpr ⟨f, rfl, holds⟩
  have distinct : p.live.Nodup := owned.inUse.of_map
  have fiberStack (g : Fiber) (other : ℕ) :
      (r.releaseStack w f stack).fiberStack g = some other ↔
        g ≠ f ∧ r.fiberStack g = some other := holds_left
  refine .call number (some w, .destroy ⟨number f, stack⟩) (guarded_eq_some.mpr ⟨live, rfl⟩)
    ⟨rep.created, fun w' => ?_, ?_, fun entry => ?_, fun g other held => ?_,
      fun g h other first second same => ?_, fun g unborn => ?_⟩
  · by_cases own : w' = w
    · subst own
      simp [StackPool.release, Runtime.releaseStack, rep.pool]
    · simpa [StackPool.release, Runtime.releaseStack, own] using rep.pool w'
  · simpa [StackPool.release] using rep.outside
  · simp only [StackPool.release, distinct.mem_erase_iff, rep.live, fiberStack]
    constructor
    · rintro ⟨different, g, numbered, held⟩
      refine ⟨g, numbered, ?_, held⟩
      rintro rfl
      cases holds.symm.trans held
      exact different (by rw [numbered])
    · rintro ⟨g, numbered, other, held⟩
      refine ⟨?_, g, numbered, held⟩
      rintro rfl
      -- Two fibers never hold the same stack.
      exact other (rep.one_holder owned held holds)
  · exact rep.numbered g other ((fiberStack g other).mp held).2
  · exact rep.apart g h other ((fiberStack g other).mp first).2 ((fiberStack h other).mp second).2
      same
  · have before := rep.unborn g unborn
    by_cases same : g = f
    · subst same
      cases before.symm.trans holds
    · simpa [Runtime.releaseStack, same] using before

theorem Represents.effect (rep : Represents number r p) (owned : StackPool.Owned p)
    {statement : Statement Fiber K} (effect : Effect r w statement r') :
    Follows p r' (statement.stackCall.map (some w, ·)) := by
  cases effect with
  | release holds => exact rep.releaseStack owned holds
  | spawn routine rest unborn => exact rep.acquireStack unborn
  | delete f => exact .quiet number (rep.quiet rfl rfl rfl (unborn_setLife (by simp)))
  | schedule f => exact .quiet number (rep.quiet rfl rfl rfl (unborn_setLife (by simp)))
  | _ => exact .quiet number (rep.quiet rfl rfl rfl fun _ => id)

end Steps

section Runs
variable [DecidableEq Fiber] [DecidableEq K]

theorem init_represents (does : K → Action K → Bool) (payload : Fiber → K) :
    Represents (fun _ => 0) (init does payload : State Worker Fiber K).runtime
      StackPool.init := by
  constructor <;> simp [init, StackPool.init]

variable [DecidableEq Worker] {does : K → Action K → Bool} {s s' : State Worker Fiber K}
  {number : Fiber → ℕ} {p : StackPool.State (Option Worker)}

theorem Represents.step (rep : Represents number s.runtime p) (owned : StackPool.Owned p)
    {label : Label Worker Fiber K} (taken : step does s label = some s') :
    Follows p s'.runtime label.stackCall := by
  cases label with
  | internal w =>
      obtain ⟨_, _, rfl⟩ := Option.map_eq_some_iff.mp taken
      exact .quiet number rep
  | statement w executed => exact rep.effect owned (statement_effect taken)
  | outsideSpawn f routine =>
      simp only [Fibers.step] at taken
      split at taken
      · rename_i unborn
        cases taken
        exact rep.allocateStack unborn
      · cases taken
  | outsideSubmit f =>
      simp only [Fibers.step] at taken
      split at taken
      · cases taken
        exact .quiet number (rep.quiet rfl rfl rfl (unborn_setLife (by simp)))
      · cases taken

/-- The run lemma: the stack pool makes the same calls, and the stacks are where it has
them. -/
theorem stacks_refine_pool {payload : Fiber → K} {trace : List (Label Worker Fiber K)}
    (run : Reaches (step does) unrestricted (init does payload) trace s) :
    ∃ calls p number, Reaches StackPool.step unrestricted StackPool.init calls p ∧
      calls.map stackCallOf = trace.filterMap Label.stackCall ∧
      Represents number s.runtime p := by
  induction run with
  | start => exact ⟨[], _, _, .start, rfl, init_represents does payload⟩
  | @next trace before after label _ _ taken ih =>
      obtain ⟨calls, p, number, made, same, rep⟩ := ih
      have follows := rep.step (StackPool.inv_reached made).owned taken
      generalize call : label.stackCall = seen at follows
      cases follows with
      | quiet number rep =>
          exact ⟨calls, p, number, made, by rw [filterMap_snoc, call, same]; simp, rep⟩
      | @call number made' p' moved rep =>
          refine ⟨calls ++ [made'], p', number, .next made' made trivial moved, ?_, rep⟩
          rw [List.map_append, filterMap_snoc, call, same]
          rfl

end Runs

end ConcurrencyCourse.Fibers
