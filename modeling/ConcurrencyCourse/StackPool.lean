import ConcurrencyCourse.Interleaving
import Mathlib.Data.Fintype.Basic
import Mathlib.Data.List.Nodup
import Mathlib.Data.List.Perm.Subperm
import Mathlib.Data.List.Range

/-!
The stack pool of the fibers, tasks/coroutine/mtf/fibers/stacks.cpp. The pool is
`thread_local`: a stack goes to the pool of the thread on which its fiber ends, and
only fibers spawned on that thread find it there. Every stack keeps exactly one
owner, but a thread with an empty pool allocates even where other pools are full.
-/

namespace ConcurrencyCourse.StackPool

open Interleaving

structure Fiber where
  number : ℕ
  stack : ℕ
  deriving DecidableEq

/-- Stacks are numbered as AllocateNewStack creates them. `peak` is the largest number
of stacks that were in use at the same time. -/
structure State (Thread : Type*) where
  created : ℕ
  spawned : ℕ
  pool : Thread → List ℕ
  live : List Fiber
  peak : ℕ

/-- The constructor of a Fiber calls AcquireStack on the spawning thread, Destroy calls
ReleaseStack on the thread on which the fiber ended. -/
inductive Op where
  | spawn
  | destroy (fiber : Fiber)
  deriving DecidableEq

variable {Thread : Type*}

def init : State Thread :=
  { created := 0, spawned := 0, pool := fun _ => [], live := [], peak := 0 }

def born (s : State Thread) (stack : ℕ) : State Thread :=
  { s with
    spawned := s.spawned + 1
    live := s.live ++ [{ number := s.spawned, stack := stack }]
    peak := max s.peak (s.live.length + 1) }

/-- A stack is allocated only where no pool has one. -/
def Thrifty (s : State Thread) : Thread × Op → Prop
  | (t, .spawn) => s.pool t = [] → ∀ u, s.pool u = []
  | (_, .destroy _) => True

instance [Fintype Thread] (s : State Thread) (label : Thread × Op) : Decidable (Thrifty s label) :=
  match label with
  | (t, .spawn) => inferInstanceAs (Decidable (s.pool t = [] → ∀ u, s.pool u = []))
  | (_, .destroy _) => inferInstanceAs (Decidable True)

def Bounded (s : State Thread) : Prop := s.created ≤ s.peak

def State.inUse (s : State Thread) : List ℕ := s.live.map Fiber.stack

structure Owned (s : State Thread) : Prop where
  inUse : s.inUse.Nodup
  pooled : ∀ t, (s.pool t).Nodup
  apart : ∀ t, ∀ stack ∈ s.pool t, stack ∉ s.inUse
  single : ∀ t u, ∀ stack ∈ s.pool t, stack ∈ s.pool u → t = u
  created : ∀ stack, stack < s.created ↔ stack ∈ s.inUse ∨ ∃ t, stack ∈ s.pool t

/-- The same while one stack is on its way between a pool and a fiber. -/
structure InHand (s : State Thread) (stack : ℕ) : Prop where
  inUse : s.inUse.Nodup
  pooled : ∀ t, (s.pool t).Nodup
  apart : ∀ t, ∀ other ∈ s.pool t, other ∉ s.inUse
  single : ∀ t u, ∀ other ∈ s.pool t, other ∈ s.pool u → t = u
  created : ∀ other, other < s.created ↔
    other = stack ∨ other ∈ s.inUse ∨ ∃ t, other ∈ s.pool t
  unused : stack ∉ s.inUse
  unpooled : ∀ t, stack ∉ s.pool t

section Fibers
variable {s : State Thread} {stack : ℕ}

theorem InHand.born (inHand : InHand s stack) : Owned (born s stack) := by
  have inUse : (StackPool.born s stack).inUse = s.inUse ++ [stack] := by
    simp [StackPool.born, State.inUse]
  constructor
  · rw [inUse, List.nodup_append]
    refine ⟨inHand.inUse, List.nodup_singleton stack, fun first member last same => ?_⟩
    rw [List.mem_singleton.mp same]
    rintro rfl
    exact inHand.unused member
  · exact inHand.pooled
  · intro t other member
    rw [inUse, List.mem_append, List.mem_singleton]
    rintro (used | rfl)
    · exact inHand.apart t other member used
    · exact inHand.unpooled t member
  · exact inHand.single
  · intro other
    rw [inUse, List.mem_append, List.mem_singleton]
    refine (inHand.created other).trans ?_
    constructor
    · rintro (rfl | used | pooled)
      · exact Or.inl (Or.inr rfl)
      · exact Or.inl (Or.inl used)
      · exact Or.inr pooled
    · rintro ((used | rfl) | pooled)
      · exact Or.inr (Or.inl used)
      · exact Or.inl rfl
      · exact Or.inr (Or.inr pooled)

theorem mem_erase_inUse {fiber : Fiber} (distinct : s.inUse.Nodup) (member : fiber ∈ s.live) :
    stack ∈ (s.live.erase fiber).map Fiber.stack ↔ stack ≠ fiber.stack ∧ stack ∈ s.inUse := by
  -- The stacks of live fibers are pairwise different, so one fiber goes with each.
  have injective := List.inj_on_of_nodup_map distinct
  have live : s.live.Nodup := distinct.of_map
  simp only [List.mem_map, live.mem_erase_iff, State.inUse]
  constructor
  · rintro ⟨other, ⟨different, present⟩, rfl⟩
    exact ⟨fun same => different (injective present member same), other, present, rfl⟩
  · rintro ⟨different, other, present, rfl⟩
    exact ⟨other, ⟨fun same => different (by rw [same]), present⟩, rfl⟩

theorem Owned.destroyed (owned : Owned s) {fiber : Fiber} (member : fiber ∈ s.live) :
    InHand { s with live := s.live.erase fiber } fiber.stack := by
  have used : fiber.stack ∈ s.inUse := List.mem_map_of_mem member
  constructor
  · exact owned.inUse.sublist (List.erase_sublist.map _)
  · exact owned.pooled
  · intro t other pooled used
    exact owned.apart t other pooled ((mem_erase_inUse owned.inUse member).mp used).2
  · exact owned.single
  · intro other
    refine (owned.created other).trans ?_
    change _ ↔ _ ∨ other ∈ (s.live.erase fiber).map Fiber.stack ∨ _
    rw [mem_erase_inUse owned.inUse member]
    constructor
    · rintro (used | pooled)
      · by_cases same : other = fiber.stack
        · exact Or.inl same
        · exact Or.inr (Or.inl ⟨same, used⟩)
      · exact Or.inr (Or.inr pooled)
    · rintro (rfl | ⟨-, used⟩ | pooled)
      · exact Or.inl used
      · exact Or.inl used
      · exact Or.inr pooled
  · intro still
    exact ((mem_erase_inUse owned.inUse member).mp still).1 rfl
  · exact fun t pooled => owned.apart t _ pooled used

theorem Owned.allocated (owned : Owned s) :
    InHand { s with created := s.created + 1 } s.created := by
  have fresh : ¬ (s.created ∈ s.inUse ∨ ∃ t, s.created ∈ s.pool t) := by
    rw [← owned.created]
    exact Nat.lt_irrefl _
  rw [not_or, not_exists] at fresh
  refine ⟨owned.inUse, owned.pooled, owned.apart, owned.single, fun other => ?_, fresh.1, fresh.2⟩
  change other < s.created + 1 ↔ other = s.created ∨ other ∈ s.inUse ∨ ∃ t, other ∈ s.pool t
  rw [← owned.created]
  omega

theorem Owned.few (owned : Owned s) {others : List ℕ} (distinct : (others ++ s.inUse).Nodup)
    (pooled : ∀ stack ∈ others, ∃ t, stack ∈ s.pool t) :
    others.length + s.live.length ≤ s.created := by
  have within : others ++ s.inUse ⊆ List.range s.created := by
    intro stack member
    rw [List.mem_range, owned.created]
    rcases List.mem_append.mp member with spare | used
    · exact Or.inr (pooled stack spare)
    · exact Or.inl used
  -- Different stacks, all of them created.
  have count := (List.subperm_of_subset distinct within).length_le
  simpa [State.inUse] using count

theorem Owned.used_le (owned : Owned s) : s.live.length ≤ s.created := by
  have distinct : ([] ++ s.inUse).Nodup := owned.inUse
  simpa using owned.few distinct (by simp)

theorem Owned.used_lt (owned : Owned s) {t : Thread} (spare : s.pool t ≠ []) :
    s.live.length < s.created := by
  obtain ⟨stack, rest, pool⟩ := List.exists_cons_of_ne_nil spare
  have member : stack ∈ s.pool t := by simp [pool]
  have distinct : ([stack] ++ s.inUse).Nodup := by
    simpa using ⟨owned.apart t stack member, owned.inUse⟩
  have count := owned.few distinct (by simpa using ⟨t, member⟩)
  simp only [List.length_singleton] at count
  omega

theorem Owned.used_all (owned : Owned s) (empty : ∀ t, s.pool t = []) :
    s.created ≤ s.live.length := by
  have within : List.range s.created ⊆ s.inUse := by
    intro stack member
    rw [List.mem_range, owned.created] at member
    simpa [empty] using member
  have count := (List.subperm_of_subset List.nodup_range within).length_le
  simpa [State.inUse] using count

/-- One owner: exactly one live fiber and no pool slot, or no live fiber and exactly one
pool slot. -/
def OneOwner (s : State Thread) (stack : ℕ) : Prop :=
  ((∃! fiber, fiber ∈ s.live ∧ fiber.stack = stack) ∧ ∀ t, stack ∉ s.pool t) ∨
    (∀ fiber ∈ s.live, fiber.stack ≠ stack) ∧
      ∃! slot : Thread × ℕ, (s.pool slot.1)[slot.2]? = some stack

theorem one_slot {pool : Thread → List ℕ} (distinct : ∀ t, (pool t).Nodup)
    (single : ∀ t u, ∀ stack ∈ pool t, stack ∈ pool u → t = u) {t : Thread}
    (pooled : stack ∈ pool t) : ∃! slot : Thread × ℕ, (pool slot.1)[slot.2]? = some stack := by
  obtain ⟨position, here⟩ := List.mem_iff_getElem?.mp pooled
  refine ⟨(t, position), here, ?_⟩
  rintro ⟨u, other⟩ there
  have same : u = t := single u t stack (List.mem_of_getElem? there) pooled
  subst same
  have bound : position < (pool u).length := (List.getElem?_eq_some_iff.mp here).1
  have index := (List.getElem?_inj bound (distinct u)).mp (here.trans there.symm)
  rw [index]

theorem Owned.one_owner (owned : Owned s) {stack : ℕ} (created : stack < s.created) :
    OneOwner s stack := by
  rcases (owned.created stack).mp created with used | ⟨t, pooled⟩
  -- In a fiber, so in no pool.
  · obtain ⟨fiber, live, rfl⟩ := List.mem_map.mp used
    refine Or.inl ⟨⟨fiber, ⟨live, rfl⟩, ?_⟩, fun t pooled => owned.apart t _ pooled used⟩
    rintro other ⟨present, same⟩
    exact List.inj_on_of_nodup_map owned.inUse present live same
  -- In a pool, so in no fiber.
  · refine Or.inr ⟨fun fiber live same => owned.apart t stack pooled ?_, ?_⟩
    · exact same ▸ List.mem_map_of_mem live
    · exact one_slot owned.pooled owned.single pooled

end Fibers

variable [DecidableEq Thread]

/-- `StackPool::Get` of the thread's own pool: the back of the vector, or a new stack. -/
def get (s : State Thread) (t : Thread) : ℕ × State Thread :=
  match (s.pool t).getLast? with
  | some stack => (stack, { s with pool := Function.update s.pool t (s.pool t).dropLast })
  | none => (s.created, { s with created := s.created + 1 })

def release (s : State Thread) (t : Thread) (stack : ℕ) : State Thread :=
  { s with pool := Function.update s.pool t (s.pool t ++ [stack]) }

def step (s : State Thread) : Thread × Op → Option (State Thread)
  | (t, .spawn) => some (born (get s t).2 (get s t).1)
  | (t, .destroy fiber) => guarded (fiber ∈ s.live)
      (release { s with live := s.live.erase fiber } t fiber.stack)

section Pools
variable {s : State Thread} {t : Thread} {stack : ℕ}

theorem get_pooled {rest : List ℕ} (pool : s.pool t = rest ++ [stack]) :
    get s t = (stack, { s with pool := Function.update s.pool t rest }) := by
  simp [get, pool]

theorem get_new (pool : s.pool t = []) :
    get s t = (s.created, { s with created := s.created + 1 }) := by
  simp [get, pool]

theorem mem_update {rest : List ℕ} {other : ℕ} {u : Thread}
    (member : other ∈ Function.update s.pool t rest u) (part : ∀ x ∈ rest, x ∈ s.pool t) :
    other ∈ s.pool u := by
  by_cases self : u = t
  · subst self
    exact part other (by simpa using member)
  · simpa [self] using member

theorem Owned.taken (owned : Owned s) {rest : List ℕ} (pool : s.pool t = rest ++ [stack]) :
    InHand { s with pool := Function.update s.pool t rest } stack := by
  have part : ∀ other ∈ rest, other ∈ s.pool t := fun other member => by simp [pool, member]
  have mine : stack ∈ s.pool t := by simp [pool]
  have distinct := owned.pooled t
  rw [pool, List.nodup_append] at distinct
  have gone : stack ∉ rest := fun member => distinct.2.2 stack member stack (by simp) rfl
  constructor
  · exact owned.inUse
  · intro u
    by_cases self : u = t
    · subst self
      simpa using distinct.1
    · simpa [self] using owned.pooled u
  · exact fun u other member => owned.apart u other (mem_update member part)
  · exact fun u v other first second =>
      owned.single u v other (mem_update first part) (mem_update second part)
  · intro other
    refine (owned.created other).trans ?_
    constructor
    -- A pooled stack is the one taken, or still in its pool.
    · rintro (used | ⟨u, pooled⟩)
      · exact Or.inr (Or.inl used)
      · by_cases same : other = stack
        · exact Or.inl same
        · refine Or.inr (Or.inr ⟨u, ?_⟩)
          by_cases self : u = t
          · subst self
            simpa [pool, same] using pooled
          · simpa [self] using pooled
    · rintro (rfl | used | ⟨u, pooled⟩)
      · exact Or.inr ⟨t, mine⟩
      · exact Or.inl used
      · exact Or.inr ⟨u, mem_update pooled part⟩
  · exact owned.apart t stack mine
  · intro u member
    by_cases self : u = t
    · subst self
      exact gone (by simpa using member)
    · exact self (owned.single u t stack (mem_update member part) mine)

theorem Owned.got (owned : Owned s) (t : Thread) : InHand (get s t).2 (get s t).1 := by
  cases pool : (s.pool t).getLast? with
  | none =>
      rw [get_new (List.getLast?_eq_none_iff.mp pool)]
      exact owned.allocated
  | some stack =>
      obtain ⟨rest, split⟩ := List.getLast?_eq_some_iff.mp pool
      rw [get_pooled split]
      exact owned.taken split

theorem InHand.released (inHand : InHand s stack) (t : Thread) : Owned (release s t stack) := by
  have mem_pool : ∀ u other, other ∈ (release s t stack).pool u ↔
      other ∈ s.pool u ∨ u = t ∧ other = stack := by
    intro u other
    by_cases self : u = t
    · subst self
      simp [release]
    · simp [release, self]
  constructor
  · exact inHand.inUse
  · intro u
    by_cases self : u = t
    · subst self
      simp only [release, Function.update_self, List.nodup_append]
      refine ⟨inHand.pooled u, List.nodup_singleton stack, fun first member last same => ?_⟩
      rw [List.mem_singleton.mp same]
      rintro rfl
      exact inHand.unpooled u member
    · simpa [release, self] using inHand.pooled u
  · intro u other member
    rcases (mem_pool u other).mp member with pooled | ⟨-, rfl⟩
    · exact inHand.apart u other pooled
    · exact inHand.unused
  · intro u v other first second
    -- The stack in hand was in no pool, so it is only in the one that gets it.
    rcases (mem_pool u other).mp first with pooled | ⟨rfl, rfl⟩
    · rcases (mem_pool v other).mp second with pooled' | ⟨rfl, rfl⟩
      · exact inHand.single u v other pooled pooled'
      · exact absurd pooled (inHand.unpooled u)
    · rcases (mem_pool v other).mp second with pooled' | ⟨rfl, -⟩
      · exact absurd pooled' (inHand.unpooled v)
      · rfl
  · intro other
    refine (inHand.created other).trans ?_
    simp only [mem_pool]
    constructor
    · rintro (rfl | used | ⟨u, pooled⟩)
      · exact Or.inr ⟨t, Or.inr ⟨rfl, rfl⟩⟩
      · exact Or.inl used
      · exact Or.inr ⟨u, Or.inl pooled⟩
    · rintro (used | ⟨u, pooled | ⟨-, rfl⟩⟩)
      · exact Or.inr (Or.inl used)
      · exact Or.inr (Or.inr ⟨u, pooled⟩)
      · exact Or.inl rfl

end Pools

structure Inv (s : State Thread) : Prop where
  owned : Owned s
  used : s.live.length ≤ s.peak
  needed : s.peak ≤ s.created

section Runs
variable {s after : State Thread} {t : Thread} {trace : List (Thread × Op)}
  {allowed : State Thread → Thread × Op → Prop}

theorem get_live (s : State Thread) (t : Thread) :
    (get s t).2.live = s.live ∧ (get s t).2.peak = s.peak ∧ s.created ≤ (get s t).2.created := by
  unfold get
  split <;> simp

theorem inv_step (inv : Inv s) (label : Thread × Op) (taken : step s label = some after) :
    Inv after := by
  obtain ⟨t, op⟩ := label
  cases op with
  | spawn =>
      cases taken
      have owned := (inv.owned.got t).born
      have count := owned.used_le
      obtain ⟨live, peak, more⟩ := get_live s t
      have needed := inv.needed
      refine ⟨owned, ?_, ?_⟩ <;> simp only [born, live, peak, List.length_append,
        List.length_singleton] at count ⊢ <;> omega
  | destroy fiber =>
      obtain ⟨member, rfl⟩ := guarded_eq_some.mp taken
      have fewer := List.length_erase_le (a := fiber) (l := s.live)
      exact ⟨(inv.owned.destroyed member).released t, fewer.trans inv.used, inv.needed⟩

theorem inv_reached (reached : Reaches step allowed init trace s) : Inv s := by
  refine reached.invariant ?_ fun s label after inv _ taken => inv_step inv label taken
  refine ⟨⟨?_, ?_, ?_, ?_, ?_⟩, ?_, ?_⟩ <;> simp [init, State.inUse]

theorem thrifty_step (inv : Inv s) (bounded : Bounded s) {label : Thread × Op}
    (thrifty : Thrifty s label) (taken : step s label = some after) : Bounded after := by
  obtain ⟨t, op⟩ := label
  cases op with
  | destroy fiber =>
      obtain ⟨-, rfl⟩ := guarded_eq_some.mp taken
      exact bounded
  | spawn =>
      cases taken
      cases pool : (s.pool t).getLast? with
      | some stack =>
          obtain ⟨rest, split⟩ := List.getLast?_eq_some_iff.mp pool
          rw [get_pooled split]
          exact Nat.le_trans bounded (Nat.le_max_left _ _)
      | none =>
          have empty := List.getLast?_eq_none_iff.mp pool
          have all := inv.owned.used_all (thrifty empty)
          rw [get_new empty]
          simp only [Bounded, born]
          omega

theorem wasteful_step (inv : Inv s) {label : Thread × Op} (wasteful : ¬ Thrifty s label)
    (taken : step s label = some after) : after.peak < after.created := by
  obtain ⟨t, op⟩ := label
  cases op with
  | destroy fiber => exact absurd trivial wasteful
  | spawn =>
      simp only [Thrifty, not_forall] at wasteful
      obtain ⟨empty, u, spare⟩ := wasteful
      cases taken
      have fewer := inv.owned.used_lt spare
      have needed := inv.needed
      rw [get_new empty]
      simp only [born]
      omega

/-- Every stack always has one owner. The pools never create more stacks than were in
use at one time exactly in the runs in which a thread with an empty pool spawns only
while all pools are empty. -/
theorem stacks_bounded_iff (trace : List (Thread × Op)) (s : State Thread) :
    (Reaches step unrestricted init trace s → ∀ stack, stack < s.created → OneOwner s stack) ∧
    (Reaches step Thrifty init trace s ↔ Reaches step unrestricted init trace s ∧
      ∀ early s', early <+: trace → Reaches step unrestricted init early s' → Bounded s') := by
  constructor
  · intro reached stack created
    exact (inv_reached reached).owned.one_owner created
  · apply reaches_exactly
    · intro trace s reached
      induction reached with
      | start => exact Nat.le_refl _
      | next label reached thrifty taken ih =>
          exact thrifty_step (inv_reached reached) ih thrifty taken
    · intro trace s label after reached taken wasteful bounded
      exact Nat.not_lt.mpr bounded (wasteful_step (inv_reached reached) wasteful taken)

/-- The fiber spawned on one thread ends on the other, and the next one spawned there gets
its stack; only then does the first thread need a second one. -/
theorem stacks_bounded_migrated : ∃ (trace : List (Bool × Op)) (s : State Bool),
    run (restricted step Thrifty) init trace = some s ∧
      s.live = [{ number := 1, stack := 0 }, { number := 2, stack := 1 }] ∧ s.created = 2 ∧
      Bounded s ∧ ∀ stack, stack < s.created → OneOwner s stack := by
  have ran : run (restricted step Thrifty) (init : State Bool)
      [(false, .spawn), (true, .destroy { number := 0, stack := 0 }), (true, .spawn),
        (false, .spawn)] = some _ := rfl
  obtain ⟨reached, bounded⟩ := (stacks_bounded_iff _ _).2.mp (run_reaches ran)
  exact ⟨_, _, ran, rfl, rfl, bounded _ _ (List.prefix_refl _) reached,
    (stacks_bounded_iff _ _).1 reached⟩

/-- Two stacks are created though at most one is in use at any time; the released one
lies in the other thread's pool. -/
theorem stacks_not_reused : ∃ (trace : List (Bool × Op)) (s : State Bool),
    Reaches step unrestricted init trace s ∧ s.created = 2 ∧ s.peak = 1 ∧ s.pool true = [0] ∧
      ¬ Bounded s := by
  have ran : run step (init : State Bool)
      [(false, .spawn), (true, .destroy { number := 0, stack := 0 }), (false, .spawn)] =
        some _ := rfl
  exact ⟨_, _, run_free ran, rfl, rfl, rfl, by unfold Bounded; decide⟩

end Runs

end ConcurrencyCourse.StackPool
