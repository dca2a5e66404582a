import ConcurrencyCourse.Semaphore

/-!
The bounded `BlockingQueue` of tasks/condvar/semaphore/blocking_queue.hpp. Put and Take
are straight-line code over three semaphores: `is_full_` holds the permits for free
places, `is_empty_` those for stored elements, `mutex_` guards `buffer_`. An operation
of a semaphore is one step, as its monitor provides; every access to `buffer_` is a
step of its own.
-/

namespace ConcurrencyCourse.SemaphoreQueue

open Interleaving Headcount
open Semaphore (acquire release acquire_eq_some acquire_toNat release_toNat)

inductive Pc (T : Type) where
  | outside
  | putAcquireFull (value : T)
  | putAcquireMutex (value : T)
  | emplaceBack (value : T)
  | putReleaseMutex
  | releaseEmpty
  | takeAcquireEmpty
  | takeAcquireMutex
  | front
  | popFront (result : T)
  | takeReleaseMutex (result : T)
  | releaseFull (result : T)
  deriving DecidableEq

inductive Op (T : Type) where
  | callPut (value : T)
  | putAcquireFull (value : T)
  | putAcquireMutex (value : T)
  | emplaceBack (value : T)
  | putReleaseMutex
  | releaseEmpty
  | callTake
  | takeAcquireEmpty
  | takeAcquireMutex
  | front (result : T)
  | popFront (result : T)
  | takeReleaseMutex (result : T)
  | releaseFull (result : T)
  deriving DecidableEq

structure State (Thread T : Type) where
  buffer : List T
  mutex : UInt64
  isEmpty : UInt64
  isFull : UInt64
  pc : Thread → Pc T

abbrev Label (Thread T : Type) := Thread × Op T

variable {Thread T : Type}

def init (capacity : UInt64) : State Thread T :=
  { buffer := [], mutex := 1, isEmpty := 0, isFull := capacity, pc := fun _ => .outside }

theorem acquired {counter : UInt64} {enabled : Prop} [Decidable enabled]
    {next : UInt64 → State Thread T} {after : State Thread T} :
    ((acquire counter).bind fun left => guarded enabled (next left)) = some after ↔
      counter ≠ 0 ∧ enabled ∧ next (counter - 1) = after := by
  simp [Option.bind_eq_some_iff, acquire_eq_some]

section Step
variable [DecidableEq Thread] [DecidableEq T]

def step (s : State Thread T) : Label Thread T → Option (State Thread T)
  | (t, .callPut value) => guarded (s.pc t = .outside)
      { s with pc := Function.update s.pc t (.putAcquireFull value) }
  | (t, .putAcquireFull value) => (acquire s.isFull).bind fun left =>
      guarded (s.pc t = .putAcquireFull value)
        { s with isFull := left, pc := Function.update s.pc t (.putAcquireMutex value) }
  | (t, .putAcquireMutex value) => (acquire s.mutex).bind fun left =>
      guarded (s.pc t = .putAcquireMutex value)
        { s with mutex := left, pc := Function.update s.pc t (.emplaceBack value) }
  | (t, .emplaceBack value) => guarded (s.pc t = .emplaceBack value)
      { s with buffer := s.buffer ++ [value], pc := Function.update s.pc t .putReleaseMutex }
  | (t, .putReleaseMutex) => guarded (s.pc t = .putReleaseMutex)
      { s with mutex := release s.mutex, pc := Function.update s.pc t .releaseEmpty }
  | (t, .releaseEmpty) => guarded (s.pc t = .releaseEmpty)
      { s with isEmpty := release s.isEmpty, pc := Function.update s.pc t .outside }
  | (t, .callTake) => guarded (s.pc t = .outside)
      { s with pc := Function.update s.pc t .takeAcquireEmpty }
  | (t, .takeAcquireEmpty) => (acquire s.isEmpty).bind fun left =>
      guarded (s.pc t = .takeAcquireEmpty)
        { s with isEmpty := left, pc := Function.update s.pc t .takeAcquireMutex }
  | (t, .takeAcquireMutex) => (acquire s.mutex).bind fun left =>
      guarded (s.pc t = .takeAcquireMutex)
        { s with mutex := left, pc := Function.update s.pc t .front }
  -- front() of an empty deque is undefined, so there is no step for it.
  | (t, .front result) => guarded (s.pc t = .front ∧ s.buffer.head? = some result)
      { s with pc := Function.update s.pc t (.popFront result) }
  | (t, .popFront result) => guarded (s.pc t = .popFront result)
      { s with
        buffer := s.buffer.tail
        pc := Function.update s.pc t (.takeReleaseMutex result) }
  | (t, .takeReleaseMutex result) => guarded (s.pc t = .takeReleaseMutex result)
      { s with mutex := release s.mutex, pc := Function.update s.pc t (.releaseFull result) }
  | (t, .releaseFull result) => guarded (s.pc t = .releaseFull result)
      { s with isFull := release s.isFull, pc := Function.update s.pc t .outside }

def Op.source : Op T → Pc T
  | .callPut _ | .callTake => .outside
  | .putAcquireFull value => .putAcquireFull value
  | .putAcquireMutex value => .putAcquireMutex value
  | .emplaceBack value => .emplaceBack value
  | .putReleaseMutex => .putReleaseMutex
  | .releaseEmpty => .releaseEmpty
  | .takeAcquireEmpty => .takeAcquireEmpty
  | .takeAcquireMutex => .takeAcquireMutex
  | .front _ => .front
  | .popFront result => .popFront result
  | .takeReleaseMutex result => .takeReleaseMutex result
  | .releaseFull result => .releaseFull result

def Op.target : Op T → Pc T
  | .callPut value => .putAcquireFull value
  | .putAcquireFull value => .putAcquireMutex value
  | .putAcquireMutex value => .emplaceBack value
  | .emplaceBack _ => .putReleaseMutex
  | .putReleaseMutex => .releaseEmpty
  | .callTake => .takeAcquireEmpty
  | .takeAcquireEmpty => .takeAcquireMutex
  | .takeAcquireMutex => .front
  | .front result => .popFront result
  | .popFront result => .takeReleaseMutex result
  | .takeReleaseMutex result => .releaseFull result
  | .releaseEmpty | .releaseFull _ => .outside

variable {s after : State Thread T} {t u : Thread} {op : Op T}

theorem pc_step (taken : step s (t, op) = some after) :
    s.pc t = op.source ∧ after.pc = Function.update s.pc t op.target := by
  cases op with
  | putAcquireFull | putAcquireMutex | takeAcquireEmpty | takeAcquireMutex =>
      rcases acquired.mp taken with ⟨_, here, rfl⟩
      exact ⟨here, rfl⟩
  | front =>
      rcases guarded_eq_some.mp taken with ⟨⟨here, _⟩, rfl⟩
      exact ⟨here, rfl⟩
  | _ =>
      rcases guarded_eq_some.mp taken with ⟨here, rfl⟩
      exact ⟨here, rfl⟩

theorem moved [Fintype Thread] (stands : Pc T → Bool) (taken : step s (t, op) = some after) :
    headcount stands after.pc + (stands op.source).toNat =
      headcount stands s.pc + (stands op.target).toNat := by
  rw [(pc_step taken).2, ← (pc_step taken).1]
  exact headcount_update stands s.pc t op.target

theorem buffer_step (taken : step s (t, op) = some after) :
    after.buffer = s.buffer ∧ (∀ value, op ≠ .emplaceBack value) ∧
      (∀ result, op ≠ .popFront result) ∨
    (∃ value, op = .emplaceBack value ∧ after.buffer = s.buffer ++ [value]) ∨
    ∃ result, op = .popFront result ∧ after.buffer = s.buffer.tail := by
  cases op with
  | emplaceBack value =>
      rcases guarded_eq_some.mp taken with ⟨_, rfl⟩
      exact Or.inr (Or.inl ⟨value, rfl, rfl⟩)
  | popFront result =>
      rcases guarded_eq_some.mp taken with ⟨_, rfl⟩
      exact Or.inr (Or.inr ⟨result, rfl, rfl⟩)
  | putAcquireFull | putAcquireMutex | takeAcquireEmpty | takeAcquireMutex =>
      rcases acquired.mp taken with ⟨_, _, rfl⟩
      exact Or.inl ⟨rfl, fun _ => nofun, fun _ => nofun⟩
  | _ =>
      rcases guarded_eq_some.mp taken with ⟨_, rfl⟩
      exact Or.inl ⟨rfl, fun _ => nofun, fun _ => nofun⟩

end Step

/-! Who holds which permit. -/

def Pc.critical : Pc T → Bool
  | .emplaceBack _ | .putReleaseMutex => true
  | .front | .popFront _ | .takeReleaseMutex _ => true
  | _ => false

def Pc.touches : Pc T → Bool
  | .emplaceBack _ | .front | .popFront _ => true
  | _ => false

/-- The thread is between its first Acquire and its last Release. -/
def Pc.between : Pc T → Bool
  | .outside | .putAcquireFull _ | .takeAcquireEmpty => false
  | _ => true

/-- A Put whose element is in `buffer_` and has no permit in `is_empty_` yet. -/
def Pc.stored : Pc T → Bool
  | .putReleaseMutex | .releaseEmpty => true
  | _ => false

/-- A Take that has the permit for an element which is still in `buffer_`. -/
def Pc.reserved : Pc T → Bool
  | .takeAcquireMutex | .front | .popFront _ => true
  | _ => false

theorem touches_critical {pc : Pc T} (touches : pc.touches = true) : pc.critical = true := by
  cases pc <;> first | rfl | cases touches

structure Inv [Fintype Thread] (capacity : UInt64) (s : State Thread T) : Prop where
  exclusive : s.mutex.toNat + headcount Pc.critical s.pc = 1
  permits : s.isFull.toNat + s.isEmpty.toNat + headcount Pc.between s.pc = capacity.toNat
  content : s.buffer.length =
    s.isEmpty.toNat + headcount Pc.stored s.pc + headcount Pc.reserved s.pc
  read : ∀ t result, s.pc t = .popFront result → s.buffer.head? = some result

section Accounting
variable [Fintype Thread] {capacity : UInt64}

theorem inv_init : Inv capacity (init capacity : State Thread T) where
  exclusive := by
    rw [headcount_eq_zero.mpr fun _ => rfl]
    rfl
  permits := by
    rw [headcount_eq_zero.mpr fun _ => rfl]
    rfl
  content := by
    rw [headcount_eq_zero.mpr fun _ => rfl, headcount_eq_zero.mpr fun _ => rfl]
    rfl
  read t result here := by cases here

theorem Inv.alone [DecidableEq Thread] {s : State Thread T} {t u : Thread}
    (inv : Inv capacity s) (first : (s.pc t).critical = true)
    (second : (s.pc u).critical = true) : t = u := by
  have most := inv.exclusive
  exact headcount_unique (by omega) first second

variable [DecidableEq Thread] [DecidableEq T] {s after : State Thread T} {t u : Thread}
  {op : Op T} {trace : List (Label Thread T)}

theorem exclusive_kept (inv : Inv capacity s) (taken : step s (t, op) = some after) :
    after.mutex.toNat + headcount Pc.critical after.pc = 1 := by
  have before := inv.exclusive
  have own := moved Pc.critical taken
  cases op with
  | putAcquireMutex | takeAcquireMutex =>
      rcases acquired.mp taken with ⟨free, _, rfl⟩
      have left := acquire_toNat free
      simp [Op.source, Op.target, Pc.critical] at own ⊢
      omega
  | putReleaseMutex | takeReleaseMutex =>
      rcases guarded_eq_some.mp taken with ⟨_, rfl⟩
      have more : (release s.mutex).toNat = s.mutex.toNat + 1 := release_toNat (by omega)
      simp [Op.source, Op.target, Pc.critical] at own ⊢
      omega
  | putAcquireFull | takeAcquireEmpty =>
      rcases acquired.mp taken with ⟨_, _, rfl⟩
      simp [Op.source, Op.target, Pc.critical] at own ⊢
      omega
  | _ =>
      rcases guarded_eq_some.mp taken with ⟨_, rfl⟩
      simp [Op.source, Op.target, Pc.critical] at own ⊢
      omega

theorem permits_kept (inv : Inv capacity s) (taken : step s (t, op) = some after) :
    after.isFull.toNat + after.isEmpty.toNat + headcount Pc.between after.pc =
      capacity.toNat := by
  have before := inv.permits
  have own := moved Pc.between taken
  have bound := capacity.toNat_lt
  cases op with
  | putAcquireFull | takeAcquireEmpty =>
      rcases acquired.mp taken with ⟨free, _, rfl⟩
      have left := acquire_toNat free
      simp [Op.source, Op.target, Pc.between] at own ⊢
      omega
  | releaseEmpty =>
      rcases guarded_eq_some.mp taken with ⟨_, rfl⟩
      simp [Op.source, Op.target, Pc.between] at own ⊢
      have more : (release s.isEmpty).toNat = s.isEmpty.toNat + 1 := release_toNat (by omega)
      omega
  | releaseFull =>
      rcases guarded_eq_some.mp taken with ⟨_, rfl⟩
      simp [Op.source, Op.target, Pc.between] at own ⊢
      have more : (release s.isFull).toNat = s.isFull.toNat + 1 := release_toNat (by omega)
      omega
  | putAcquireMutex | takeAcquireMutex =>
      rcases acquired.mp taken with ⟨_, _, rfl⟩
      simp [Op.source, Op.target, Pc.between] at own ⊢
      omega
  | _ =>
      rcases guarded_eq_some.mp taken with ⟨_, rfl⟩
      simp [Op.source, Op.target, Pc.between] at own ⊢
      omega

theorem content_kept (inv : Inv capacity s) (taken : step s (t, op) = some after) :
    after.buffer.length =
      after.isEmpty.toNat + headcount Pc.stored after.pc + headcount Pc.reserved after.pc := by
  have before := inv.content
  have puts := moved Pc.stored taken
  have takes := moved Pc.reserved taken
  cases op with
  | takeAcquireEmpty =>
      rcases acquired.mp taken with ⟨free, _, rfl⟩
      have left := acquire_toNat free
      simp [Op.source, Op.target, Pc.stored, Pc.reserved] at puts takes ⊢
      omega
  | releaseEmpty =>
      have held := moved Pc.between taken
      have permits := inv.permits
      have bound := capacity.toNat_lt
      rcases guarded_eq_some.mp taken with ⟨_, rfl⟩
      simp [Op.source, Op.target, Pc.stored, Pc.reserved, Pc.between] at puts takes held ⊢
      have more : (release s.isEmpty).toNat = s.isEmpty.toNat + 1 := release_toNat (by omega)
      omega
  | putAcquireFull | putAcquireMutex | takeAcquireMutex =>
      rcases acquired.mp taken with ⟨_, _, rfl⟩
      simp [Op.source, Op.target, Pc.stored, Pc.reserved] at puts takes ⊢
      omega
  | _ =>
      rcases guarded_eq_some.mp taken with ⟨_, rfl⟩
      simp [Op.source, Op.target, Pc.stored, Pc.reserved] at puts takes ⊢
      omega

theorem read_kept (inv : Inv capacity s) (taken : step s (t, op) = some after) (u : Thread)
    (result : T) (here : after.pc u = .popFront result) : after.buffer.head? = some result := by
  rcases pc_step taken with ⟨source, target⟩
  rw [target] at here
  by_cases self : u = t
  · subst self
    rw [Function.update_self] at here
    cases op with
    | front read =>
        rcases guarded_eq_some.mp taken with ⟨⟨_, found⟩, rfl⟩
        cases here
        exact found
    | _ => cases here
  · rw [Function.update_of_ne self] at here
    have head := inv.read u result here
    rcases buffer_step taken with ⟨same, _⟩ | ⟨value, _, pushed⟩ | ⟨other, rfl, _⟩
    · rw [same, head]
    · rw [pushed, List.head?_append, head]
      rfl
    · exact absurd (inv.alone (by rw [here]; rfl) (by rw [source]; rfl)) self

theorem inv_step (inv : Inv capacity s) (taken : step s (t, op) = some after) :
    Inv capacity after where
  exclusive := exclusive_kept inv taken
  permits := permits_kept inv taken
  content := content_kept inv taken
  read := read_kept inv taken

theorem inv (reached : Reaches step unrestricted (init capacity) trace s) : Inv capacity s :=
  reached.invariant inv_init fun _ _ _ inv _ taken => inv_step inv taken

end Accounting

/-! What a run has put and taken. -/
section Values

def pushOf : Label Thread T → Option (Thread × T)
  | (t, .emplaceBack value) => some (t, value)
  | _ => none

def popOf : Label Thread T → Option T
  | (_, .popFront result) => some result
  | _ => none

def pushes (trace : List (Label Thread T)) : List (Thread × T) := trace.filterMap pushOf

def pushed (trace : List (Label Thread T)) : List T := (pushes trace).map Prod.snd

def popped (trace : List (Label Thread T)) : List T := trace.filterMap popOf

variable [DecidableEq Thread]

def putOf (producer : Thread) : Label Thread T → Option T
  | (t, .callPut value) => if t = producer then some value else none
  | _ => none

def putBy (producer : Thread) (trace : List (Label Thread T)) : List T :=
  trace.filterMap (putOf producer)

def valuesOf (producer : Thread) (entries : List (Thread × T)) : List T :=
  (entries.filter fun entry => entry.1 = producer).map Prod.snd

def Pc.unpushed : Pc T → List T
  | .putAcquireFull value | .putAcquireMutex value | .emplaceBack value => [value]
  | _ => []

variable [DecidableEq T] {capacity : UInt64} {s after : State Thread T} {t : Thread} {op : Op T}
  {trace : List (Label Thread T)}

theorem pushed_in_order (reached : Reaches step unrestricted (init capacity) trace s)
    (producer : Thread) :
    valuesOf producer (pushes trace) ++ (s.pc producer).unpushed = putBy producer trace := by
  induction reached with
  | start => rfl
  | @next trace s after label _ _ taken ih =>
      rcases label with ⟨t, op⟩
      rcases pc_step taken with ⟨source, target⟩
      rw [target]
      simp only [valuesOf, pushes, putBy, filterMap_snoc, List.filter_append,
        List.map_append] at ih ⊢
      rw [← ih]
      by_cases self : t = producer
      · subst self
        rw [source]
        cases op <;> simp [Op.source, Op.target, Pc.unpushed, pushOf, putOf]
      · rw [Function.update_of_ne (Ne.symm self)]
        cases op <;> simp [pushOf, putOf, self]

variable [Fintype Thread]

theorem popped_pushed (reached : Reaches step unrestricted (init capacity) trace s) :
    popped trace ++ s.buffer = pushed trace := by
  induction reached with
  | start => rfl
  | @next trace s after label reached _ taken ih =>
      rcases label with ⟨t, op⟩
      simp only [popped, pushed, pushes, filterMap_snoc, List.map_append] at ih ⊢
      rw [← ih]
      rcases buffer_step taken with ⟨same, noPush, noPop⟩ | ⟨value, rfl, grown⟩ |
          ⟨result, rfl, shrunk⟩
      · rw [same]
        cases op with
        | emplaceBack value => exact absurd rfl (noPush value)
        | popFront result => exact absurd rfl (noPop result)
        | _ => simp [pushOf, popOf]
      · simp [grown, pushOf, popOf]
      · rcases List.head?_eq_some_iff.mp ((inv reached).read t result (pc_step taken).1) with
          ⟨rest, content⟩
        simp [shrunk, content, pushOf, popOf]

end Values

section Results
variable [Fintype Thread] {capacity : UInt64} {s : State Thread T}

theorem length_le (inv : Inv capacity s) : s.buffer.length ≤ capacity.toNat := by
  have content := inv.content
  have permits := inv.permits
  -- A stored or reserved element belongs to a thread between its Acquire and its Release.
  have apart : headcount Pc.stored s.pc + headcount Pc.reserved s.pc ≤
      headcount Pc.between s.pc := by
    rw [headcount, headcount, headcount, ← Finset.sum_add_distrib]
    apply Finset.sum_le_sum
    intro t _
    cases s.pc t <;> simp [Pc.stored, Pc.reserved, Pc.between]
  omega

theorem reserved_nonempty (inv : Inv capacity s) {t : Thread}
    (reserved : (s.pc t).reserved = true) : s.buffer ≠ [] := by
  have content := inv.content
  have some' := headcount_pos_of reserved
  intro drained
  rw [drained, List.length_nil] at content
  omega

variable [DecidableEq Thread] [DecidableEq T] {trace : List (Label Thread T)}

/-- The queue is a bounded FIFO queue: one thread at a time touches `buffer_`, which
never exceeds the capacity and is never read empty; every permit is free, in a
semaphore, or with a thread between its first Acquire and its last Release; the values
popped and those left are the values pushed, in that order; and what came out of the
Puts of one thread is a first part of what it called Put with. -/
theorem bounded_fifo (reached : Reaches step unrestricted (init capacity) trace s) :
    (∀ t u, (s.pc t).touches = true → (s.pc u).touches = true → t = u) ∧
    s.buffer.length ≤ capacity.toNat ∧
    (∀ t, (s.pc t = .front ∨ ∃ result, s.pc t = .popFront result) → s.buffer ≠ []) ∧
    s.isFull.toNat + s.isEmpty.toNat + headcount Pc.between s.pc = capacity.toNat ∧
    popped trace ++ s.buffer = pushed trace ∧
    ∀ producer, valuesOf producer ((pushes trace).take (popped trace).length) <+:
      putBy producer trace := by
  have inv := inv reached
  refine ⟨?_, length_le inv, ?_, inv.permits, popped_pushed reached, ?_⟩
  · intro t u first second
    exact inv.alone (touches_critical first) (touches_critical second)
  · rintro t (here | ⟨result, here⟩)
    · exact reserved_nonempty inv (t := t) (by rw [here]; rfl)
    · exact reserved_nonempty inv (t := t) (by rw [here]; rfl)
  · intro producer
    rw [← pushed_in_order reached producer]
    have shorter := ((List.take_prefix (popped trace).length (pushes trace)).filter
      fun entry => entry.1 = producer).map Prod.snd
    exact shorter.trans (List.prefix_append _ _)

/-- Thread 1 is about to pop 7 from a queue of capacity 1 while thread 2 waits for the
place. -/
theorem bounded_fifo_one_taking :
    ∃ (trace : List (Label (Fin 3) ℕ)) (s : State (Fin 3) ℕ),
      run step (init 1) trace = some s ∧ s.pc 1 = .popFront 7 ∧ s.buffer ≠ [] ∧
      s.buffer.length ≤ 1 := by
  have ran : run step (init 1 : State (Fin 3) ℕ)
      [(0, .callPut 7), (0, .putAcquireFull 7), (0, .putAcquireMutex 7), (0, .emplaceBack 7),
        (0, .putReleaseMutex), (0, .releaseEmpty), (2, .callPut 8), (1, .callTake),
        (1, .takeAcquireEmpty), (1, .takeAcquireMutex), (1, .front 7)] = some _ := rfl
  rcases bounded_fifo (run_free ran) with ⟨_, short, filled, _⟩
  exact ⟨_, _, ran, rfl, filled 1 (Or.inr ⟨7, rfl⟩), short⟩

end Results

/-! When everybody is blocked. -/

def Blocked (s : State Thread T) : Pc T → Prop
  | .putAcquireFull _ => s.isFull = 0
  | .takeAcquireEmpty => s.isEmpty = 0
  | .putAcquireMutex _ | .takeAcquireMutex => s.mutex = 0
  | _ => False

def Stuck (s : State Thread T) : Prop := ∀ t, s.pc t ≠ .outside → Blocked s (s.pc t)

def AllTake (s : State Thread T) : Prop :=
  (∀ t, s.pc t ≠ .outside → s.pc t = .takeAcquireEmpty) ∧ s.buffer = []

def AllPut (capacity : UInt64) (s : State Thread T) : Prop :=
  (∀ t, s.pc t ≠ .outside → ∃ value, s.pc t = .putAcquireFull value) ∧
    s.buffer.length = capacity.toNat

section Stuckness
variable [Fintype Thread] {capacity : UInt64} {s : State Thread T}

theorem stuck_mutex (inv : Inv capacity s) (stuck : Stuck s) : s.mutex = 1 := by
  have nobody : headcount Pc.critical s.pc = 0 := by
    apply headcount_eq_zero.mpr
    intro t
    have blocked := stuck t
    cases here : s.pc t <;> first | rfl | simp [here, Blocked] at blocked
  have exclusive := inv.exclusive
  exact UInt64.toNat_inj.mp (by simpa [nobody] using exclusive)

theorem stuck_waits (inv : Inv capacity s) (stuck : Stuck s) (t : Thread)
    (inside : s.pc t ≠ .outside) :
    s.pc t = .takeAcquireEmpty ∧ s.isEmpty = 0 ∨
      (∃ value, s.pc t = .putAcquireFull value) ∧ s.isFull = 0 := by
  have blocked := stuck t inside
  have free := stuck_mutex inv stuck
  cases here : s.pc t with
  | takeAcquireEmpty => exact Or.inl ⟨rfl, by simpa [here, Blocked] using blocked⟩
  | putAcquireFull value => exact Or.inr ⟨⟨value, rfl⟩, by simpa [here, Blocked] using blocked⟩
  | _ => simp [here, Blocked, free] at blocked

theorem stuck_counts (inv : Inv capacity s) (stuck : Stuck s) :
    s.isFull.toNat + s.isEmpty.toNat = capacity.toNat ∧
      s.buffer.length = s.isEmpty.toNat := by
  have waits := stuck_waits inv stuck
  have nobody : ∀ stands : Pc T → Bool, (∀ pc, stands pc = true → pc.between = true) →
      headcount stands s.pc = 0 := by
    intro stands within
    apply headcount_eq_zero.mpr
    intro t
    cases here : stands (s.pc t) with
    | false => rfl
    | true =>
        have between := within _ here
        have inside : s.pc t ≠ .outside := by
          intro out
          simp [out, Pc.between] at between
        rcases waits t inside with ⟨there, _⟩ | ⟨⟨value, there⟩, _⟩ <;>
          simp [there, Pc.between] at between
  have putters : headcount Pc.stored s.pc = 0 :=
    nobody Pc.stored fun pc stored => by cases pc <;> first | rfl | cases stored
  have takers : headcount Pc.reserved s.pc = 0 :=
    nobody Pc.reserved fun pc reserved => by cases pc <;> first | rfl | cases reserved
  have inside := nobody Pc.between fun _ between => between
  have permits := inv.permits
  have content := inv.content
  omega

variable [DecidableEq Thread] [DecidableEq T] {trace : List (Label Thread T)}

/-- The queue blocks only when it must. Where every thread inside is blocked, `mutex_` is
free and nobody waits for it; if there is such a thread at all, then either all of them
are Takes and the queue is empty, or all are Puts and it is full, and not both. -/
theorem blocks_when_it_must (positive : 0 < capacity)
    (reached : Reaches step unrestricted (init capacity) trace s) (stuck : Stuck s) :
    s.mutex = 1 ∧
    (∀ t, s.pc t ≠ .takeAcquireMutex ∧ ∀ value, s.pc t ≠ .putAcquireMutex value) ∧
    ((∃ t, s.pc t ≠ .outside) → AllTake s ∨ AllPut capacity s) ∧
    ¬ ((∃ t, s.pc t = .takeAcquireEmpty) ∧ ∃ t value, s.pc t = .putAcquireFull value) := by
  have inv := inv reached
  have waits := stuck_waits inv stuck
  rcases stuck_counts inv stuck with ⟨permits, content⟩
  -- The two semaphores of the queue cannot both be at 0.
  have apart : s.isEmpty = 0 → s.isFull ≠ 0 := by
    intro first second
    rw [first, second] at permits
    have none' : capacity = 0 := UInt64.toNat_inj.mp permits.symm
    simp [none'] at positive
  refine ⟨stuck_mutex inv stuck, ?_, ?_, ?_⟩
  · intro t
    have either := waits t
    cases here : s.pc t <;> simp [here] at either ⊢
  · rintro ⟨t, inside⟩
    rcases waits t inside with ⟨_, empty⟩ | ⟨_, full⟩
    · apply Or.inl
      constructor
      · intro u within
        rcases waits u within with ⟨takes, _⟩ | ⟨_, full⟩
        · exact takes
        · exact absurd full (apart empty)
      · exact List.eq_nil_of_length_eq_zero (by rw [content, empty]; rfl)
    · apply Or.inr
      constructor
      · intro u within
        rcases waits u within with ⟨_, empty⟩ | ⟨puts, _⟩
        · exact absurd full (apart empty)
        · exact puts
      · rw [content, ← permits, full]
        simp
  · rintro ⟨⟨t, takes⟩, u, value, puts⟩
    have empty := stuck t (by simp [takes])
    have full := stuck u (by simp [puts])
    rw [takes] at empty
    rw [puts] at full
    exact apart empty full

end Stuckness

def onePut : List (Label (Fin 1) ℕ) :=
  [(0, .callPut 7), (0, .putAcquireFull 7), (0, .putAcquireMutex 7), (0, .emplaceBack 7),
    (0, .putReleaseMutex), (0, .releaseEmpty)]

/-- With nobody inside, every thread inside is blocked, and the queue need not be empty
or full. -/
theorem stuck_with_nobody_inside :
    ∃ s : State (Fin 1) ℕ, Reaches step unrestricted (init 2) onePut s ∧ Stuck s ∧
      ¬ (AllTake s ∨ AllPut 2 s) := by
  have ran : run step (init 2) onePut = some _ := rfl
  refine ⟨_, run_free ran, ?_, ?_⟩
  · intro t inside
    have out : t = 0 := Subsingleton.elim _ _
    subst out
    exact absurd rfl inside
  · rintro (⟨_, drained⟩ | ⟨_, filled⟩)
    · cases drained
    · cases filled

/-- Two Takes wait for an element. -/
def twoTakes : List (Label (Fin 2) ℕ) := [(0, .callTake), (1, .callTake)]

theorem blocks_when_it_must_two_takes :
    ∃ s : State (Fin 2) ℕ, run step (init 1) twoTakes = some s ∧ s.mutex = 1 ∧
      (AllTake s ∨ AllPut 1 s) := by
  have ran : run step (init 1) twoTakes = some _ := rfl
  have stuck := blocks_when_it_must (by decide) (run_free ran)
    (Fin.forall_fin_two.mpr ⟨fun _ => rfl, fun _ => rfl⟩)
  exact ⟨_, ran, stuck.1, stuck.2.2.1 ⟨0, nofun⟩⟩

end ConcurrencyCourse.SemaphoreQueue
