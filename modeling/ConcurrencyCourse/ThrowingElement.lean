import ConcurrencyCourse.SemaphoreQueue

/-!
The bounded `BlockingQueue` of tasks/condvar/semaphore/blocking_queue.hpp with elements
that throw: `emplace_back` in Put, where nothing is stored then, and the move out of
`front()` in Take. Neither function catches anything or holds its permits in an object
with a destructor, so the exception leaves at once and no Release runs.
-/

namespace ConcurrencyCourse.ThrowingElement

open Interleaving Headcount
open SemaphoreQueue (Pc Op State Inv init acquired pc_step inv_init inv_step)
open Semaphore (release)

inductive Act (T : Type) where
  | runs (op : Op T)
  | emplaceThrows (value : T)
  | moveThrows
  deriving DecidableEq

abbrev Label (Thread T : Type) := Thread × Act T

variable {Thread T : Type}

section Step
variable [DecidableEq Thread] [DecidableEq T]

def step (s : State Thread T) : Label Thread T → Option (State Thread T)
  | (t, .runs op) => SemaphoreQueue.step s (t, op)
  | (t, .emplaceThrows value) => guarded (s.pc t = .emplaceBack value)
      { s with pc := Function.update s.pc t .outside }
  | (t, .moveThrows) => guarded (s.pc t = .front ∧ s.buffer ≠ [])
      { s with pc := Function.update s.pc t .outside }

end Step

def Act.throws : Act T → Bool
  | .runs _ => false
  | .emplaceThrows _ | .moveThrows => true

def Act.calls : Act T → Bool
  | .runs (.callPut _) | .runs .callTake => true
  | _ => false

def waits : Pc T → Bool
  | .putAcquireFull _ | .putAcquireMutex _ => true
  | .takeAcquireEmpty | .takeAcquireMutex => true
  | _ => false

/-! After an exception. -/

/-- `mutex_` is taken and nobody is there to release it. -/
structure Abandoned (s : State Thread T) : Prop where
  mutex : s.mutex = 0
  nobody : ∀ u, (s.pc u).critical = false

theorem not_abandoned [Fintype Thread] {capacity : UInt64} {s : State Thread T}
    (inv : Inv capacity s) : ¬ Abandoned s := by
  intro abandoned
  have exclusive := inv.exclusive
  rw [abandoned.mutex, headcount_eq_zero.mpr abandoned.nobody] at exclusive
  cases exclusive

section Abandoned
variable [DecidableEq Thread] [DecidableEq T] {s after : State Thread T} {t u : Thread}
  {act : Act T}

theorem throws_step (throws : act.throws = true) (taken : step s (t, act) = some after) :
    (s.pc t).critical = true ∧ after = { s with pc := Function.update s.pc t .outside } := by
  cases act with
  | runs op => cases throws
  | emplaceThrows value =>
      rcases guarded_eq_some.mp taken with ⟨here, rfl⟩
      exact ⟨by rw [here]; rfl, rfl⟩
  | moveThrows =>
      rcases guarded_eq_some.mp taken with ⟨⟨here, _⟩, rfl⟩
      exact ⟨by rw [here]; rfl, rfl⟩

theorem mutex_kept {op : Op T} (mutex : s.mutex = 0) (out : op.source.critical = false)
    (taken : SemaphoreQueue.step s (t, op) = some after) :
    after.mutex = 0 ∧ op.target.critical = false := by
  cases op with
  -- Nobody gets a mutex that stands at 0.
  | putAcquireMutex | takeAcquireMutex =>
      rcases acquired.mp taken with ⟨free, _⟩
      exact absurd mutex free
  | putAcquireFull | takeAcquireEmpty =>
      rcases acquired.mp taken with ⟨_, _, rfl⟩
      exact ⟨mutex, rfl⟩
  | callPut | callTake | releaseEmpty | releaseFull =>
      rcases guarded_eq_some.mp taken with ⟨_, rfl⟩
      exact ⟨mutex, rfl⟩
  | emplaceBack | putReleaseMutex | front | popFront | takeReleaseMutex => cases out

theorem abandoned_step (abandoned : Abandoned s) (taken : step s (t, act) = some after) :
    Abandoned after := by
  cases act with
  | runs op =>
      rcases pc_step taken with ⟨source, target⟩
      -- Nobody is inside, so nobody is there to give the mutex back.
      have out : op.source.critical = false := source ▸ abandoned.nobody t
      rcases mutex_kept abandoned.mutex out taken with ⟨mutex, away⟩
      refine ⟨mutex, fun u => ?_⟩
      rw [target]
      by_cases self : u = t
      · simpa [self] using away
      · simpa [self] using abandoned.nobody u
  | emplaceThrows | moveThrows =>
      have inside := (throws_step rfl taken).1
      rw [abandoned.nobody t] at inside
      cases inside

theorem waits_kept (abandoned : Abandoned s) (waiting : waits (s.pc u) = true)
    (taken : step s (t, act) = some after) : waits (after.pc u) = true := by
  cases act with
  | runs op =>
      rcases pc_step taken with ⟨source, target⟩
      rw [target]
      by_cases self : u = t
      · subst self
        rw [source] at waiting
        rw [Function.update_self]
        cases op with
        | putAcquireMutex | takeAcquireMutex =>
            rcases acquired.mp taken with ⟨free, _⟩
            exact absurd abandoned.mutex free
        -- It may pass the first semaphore, but not `mutex_`.
        | putAcquireFull | takeAcquireEmpty => rfl
        | _ => cases waiting
      · simpa [self] using waiting
  | emplaceThrows | moveThrows =>
      have inside := (throws_step rfl taken).1
      rw [abandoned.nobody t] at inside
      cases inside

theorem calls_wait (calls : act.calls = true) (taken : step s (t, act) = some after) :
    waits (after.pc t) = true := by
  cases act with
  | runs op =>
      rcases pc_step taken with ⟨_, target⟩
      rw [target, Function.update_self]
      cases op with
      | callPut | callTake => rfl
      | _ => cases calls
  | emplaceThrows | moveThrows => cases calls

theorem abandoned_forever (abandoned : Abandoned s) {late : List (Label Thread T)}
    (reached : Reaches step unrestricted s late after) :
    Abandoned after ∧
      ∀ u act, (u, act) ∈ late → act.calls = true → waits (after.pc u) = true := by
  induction reached with
  | start => exact ⟨abandoned, nofun⟩
  | @next late s after label reached _ taken ih =>
      obtain ⟨t, act'⟩ := label
      refine ⟨abandoned_step ih.1 taken, fun u act member calls => ?_⟩
      rcases List.mem_append.mp member with earlier | last
      · exact waits_kept ih.1 (ih.2 u act earlier calls) taken
      · cases List.mem_singleton.mp last
        exact calls_wait calls taken

end Abandoned
/-! The run without a call. -/

def callOf : Pc T → Option (Op T)
  | .putAcquireFull value | .putAcquireMutex value | .emplaceBack value => some (.callPut value)
  | .takeAcquireEmpty | .takeAcquireMutex | .front => some .callTake
  | _ => none

def tookMutex : Pc T → UInt64
  | .emplaceBack _ | .front => 1
  | _ => 0

def tookFull : Pc T → UInt64
  | .putAcquireMutex _ | .emplaceBack _ => 1
  | _ => 0

def tookEmpty : Pc T → UInt64
  | .takeAcquireMutex | .front => 1
  | _ => 0

/-- The state as it would be if the thread had not made its call. -/
def withoutCall [DecidableEq Thread] (t : Thread) (s : State Thread T) : State Thread T :=
  { buffer := s.buffer
    mutex := s.mutex + tookMutex (s.pc t)
    isEmpty := s.isEmpty + tookEmpty (s.pc t)
    isFull := s.isFull + tookFull (s.pc t)
    pc := Function.update s.pc t .outside }

structure Room (t : Thread) (s : State Thread T) : Prop where
  mutex : s.mutex.toNat + (tookMutex (s.pc t)).toNat < 2 ^ 64
  isFull : s.isFull.toNat + (tookFull (s.pc t)).toNat < 2 ^ 64
  isEmpty : s.isEmpty.toNat + (tookEmpty (s.pc t)).toNat < 2 ^ 64

theorem room [Fintype Thread] {capacity : UInt64} {s : State Thread T} (inv : Inv capacity s)
    (t : Thread) : Room t s := by
  have exclusive := inv.exclusive
  have permits := inv.permits
  have bound := capacity.toNat_lt
  have inside : (s.pc t).between = true → 0 < headcount Pc.between s.pc := headcount_pos_of
  constructor <;>
  · cases here : s.pc t <;>
      simp [here, tookMutex, tookFull, tookEmpty, Pc.between] at inside ⊢ <;> omega

theorem acquires_more {counter more : UInt64} (free : counter ≠ 0)
    (room : counter.toNat + more.toNat < 2 ^ 64) :
    counter + more ≠ 0 ∧ counter + more - 1 = counter - 1 + more := by
  constructor
  -- Permits given back cannot wrap the counter around to 0.
  · intro zero
    have sum := congrArg UInt64.toNat zero
    rw [UInt64.toNat_add, Nat.mod_eq_of_lt room, UInt64.toNat_zero] at sum
    exact free (UInt64.toNat_inj.mp (Nat.eq_zero_of_add_eq_zero_right sum))
  · grind

theorem release_more (counter more : UInt64) :
    release (counter + more) = release counter + more := by
  unfold release
  grind

section Erasure
variable [DecidableEq Thread] [DecidableEq T] {s after w : State Thread T} {t u : Thread}

theorem others_withoutCall {op : Op T} (other : u ≠ t) (room : Room t s)
    (taken : SemaphoreQueue.step s (u, op) = some after) :
    SemaphoreQueue.step (withoutCall t s) (u, op) = some (withoutCall t after) := by
  have stands : (withoutCall t s).pc u = s.pc u := Function.update_of_ne other _ _
  have apart : ∀ next, Function.update (Function.update s.pc t .outside) u next =
      Function.update (Function.update s.pc u next) t .outside :=
    fun next => Function.update_comm other.symm _ _ _
  have still : ∀ next, Function.update s.pc u next t = s.pc t :=
    fun next => Function.update_of_ne other.symm _ _
  cases op with
  | putAcquireFull value =>
      rcases acquired.mp taken with ⟨free, here, rfl⟩
      rcases acquires_more free room.isFull with ⟨free', less⟩
      refine acquired.mpr ⟨free', stands.trans here, ?_⟩
      simp [withoutCall, less, apart, still]
  | takeAcquireEmpty =>
      rcases acquired.mp taken with ⟨free, here, rfl⟩
      rcases acquires_more free room.isEmpty with ⟨free', less⟩
      refine acquired.mpr ⟨free', stands.trans here, ?_⟩
      simp [withoutCall, less, apart, still]
  | putAcquireMutex | takeAcquireMutex =>
      rcases acquired.mp taken with ⟨free, here, rfl⟩
      rcases acquires_more free room.mutex with ⟨free', less⟩
      refine acquired.mpr ⟨free', stands.trans here, ?_⟩
      simp [withoutCall, less, apart, still]
  | front result =>
      rcases guarded_eq_some.mp taken with ⟨⟨here, first⟩, rfl⟩
      refine guarded_eq_some.mpr ⟨⟨stands.trans here, first⟩, ?_⟩
      simp [withoutCall, apart, still]
  | _ =>
      rcases guarded_eq_some.mp taken with ⟨here, rfl⟩
      refine guarded_eq_some.mpr ⟨stands.trans here, ?_⟩
      simp [withoutCall, apart, still, release_more]

theorem own_withoutCall {op call : Op T} (taken : SemaphoreQueue.step s (t, op) = some after)
    (here : callOf (after.pc t) = some call) :
    (op = call ∧ (Act.runs op).calls = true ∧ withoutCall t after = s) ∨
      callOf (s.pc t) = some call ∧ (Act.runs op).calls = false ∧
        withoutCall t after = withoutCall t s := by
  rcases pc_step taken with ⟨source, target⟩
  rw [target, Function.update_self] at here
  rw [source]
  cases op with
  | callPut value =>
      rcases guarded_eq_some.mp taken with ⟨out, rfl⟩
      refine Or.inl ⟨Option.some.inj here, rfl, ?_⟩
      simp [withoutCall, tookMutex, tookEmpty, tookFull, ← out]
  | callTake =>
      rcases guarded_eq_some.mp taken with ⟨out, rfl⟩
      refine Or.inl ⟨Option.some.inj here, rfl, ?_⟩
      simp [withoutCall, tookMutex, tookEmpty, tookFull, ← out]
  -- What the call has taken is what `withoutCall` gives back.
  | putAcquireFull | putAcquireMutex | takeAcquireEmpty | takeAcquireMutex =>
      rcases acquired.mp taken with ⟨_, before, rfl⟩
      refine Or.inr ⟨here, rfl, ?_⟩
      simp [withoutCall, tookMutex, tookEmpty, tookFull, before]
  | _ => cases here

theorem call_of_throw {act : Act T} (throws : act.throws = true)
    (taken : step s (t, act) = some after) : ∃ call, callOf (s.pc t) = some call := by
  cases act with
  | runs op => cases throws
  | emplaceThrows value => exact ⟨.callPut value, by rw [(guarded_eq_some.mp taken).1]; rfl⟩
  | moveThrows => exact ⟨.callTake, by rw [(guarded_eq_some.mp taken).1.1]; rfl⟩

variable [Fintype Thread] {capacity : UInt64} {trace : List (Label Thread T)} {act : Act T}

theorem abandons (inv : Inv capacity s) (throws : act.throws = true)
    (taken : step s (t, act) = some after) : Abandoned after := by
  rcases throws_step throws taken with ⟨inside, rfl⟩
  constructor
  · have exclusive := inv.exclusive
    have owner := headcount_pos_of inside
    have none' : s.mutex.toNat = 0 := by omega
    exact UInt64.toNat_inj.mp none'
  -- The thrower was alone inside, and now is outside.
  · intro u
    by_cases self : u = t
    · simp [self, Pc.critical]
    · simp only [Function.update_of_ne self, Bool.eq_false_iff]
      exact fun within => self (inv.alone within inside)

/-- Either nothing has been thrown so far, or `mutex_` is lost. -/
theorem inv_or_abandoned (reached : Reaches step unrestricted (init capacity) trace s) :
    Inv capacity s ∨ Abandoned s := by
  induction reached with
  | start => exact Or.inl inv_init
  | @next trace s after label reached _ taken ih =>
      obtain ⟨t, act⟩ := label
      rcases ih with inv | abandoned
      · cases act with
        | runs op => exact Or.inl (inv_step inv taken)
        | emplaceThrows | moveThrows => exact Or.inr (abandons inv rfl taken)
      · exact Or.inr (abandoned_step abandoned taken)

theorem erasure_square {call : Op T} (reached : Reaches step unrestricted (init capacity) trace s)
    {label : Label Thread T} (taken : step s label = some after)
    (here : Inv capacity after ∧ callOf (after.pc t) = some call) :
    (label = (t, .runs call) ∧ (Act.runs call).calls = true) ∧ withoutCall t after = s ∨
      (Inv capacity s ∧ callOf (s.pc t) = some call) ∧ label.1 = t ∧ label.2.calls = false ∧
        withoutCall t after = withoutCall t s ∨
      (Inv capacity s ∧ callOf (s.pc t) = some call) ∧ ¬ label.1 = t ∧
        step (withoutCall t s) label = some (withoutCall t after) := by
  obtain ⟨u, act⟩ := label
  obtain ⟨inv, here⟩ := here
  -- Once `mutex_` is lost it stays so, so nothing had been thrown before.
  have before : Inv capacity s := (inv_or_abandoned reached).resolve_right fun abandoned =>
    not_abandoned inv (abandoned_step abandoned taken)
  cases act with
  | emplaceThrows | moveThrows => exact absurd (abandons before rfl taken) (not_abandoned inv)
  | runs op =>
      by_cases self : u = t
      · subst self
        rcases own_withoutCall taken here with ⟨rfl, calls, same⟩ | ⟨was, mute, same⟩
        · exact Or.inl ⟨⟨rfl, calls⟩, same⟩
        · exact Or.inr (Or.inl ⟨⟨before, was⟩, rfl, mute, same⟩)
      · have still : after.pc t = s.pc t := by
          rw [(pc_step taken).2, Function.update_of_ne (Ne.symm self)]
        exact Or.inr (Or.inr ⟨⟨before, still ▸ here⟩, self,
          others_withoutCall self (room before t) taken⟩)

theorem call_erased (reached : Reaches step unrestricted (init capacity) trace s)
    (inv : Inv capacity s) {call : Op T} (here : callOf (s.pc t) = some call) :
    ∃ early middle, trace = early ++ (t, .runs call) :: middle ∧
      (Act.runs call).calls = true ∧ (∀ act, (t, act) ∈ middle → act.calls = false) ∧
      Reaches step unrestricted (init capacity)
        (early ++ middle.filter fun label => label.1 ≠ t) (withoutCall t s) := by
  obtain ⟨early, _, middle, split, ⟨rfl, calls⟩, mutes, without⟩ :=
    reached.erase (fun label => label.1 = t) (fun there => nomatch there.2)
      (fun _ _ _ _ earlier taken there => erasure_square earlier taken there) ⟨inv, here⟩
  exact ⟨early, middle, split, calls, fun act member => mutes (t, act) member rfl, without⟩

end Erasure

/-! What an exception leaves. -/

/-- An exception that harms nothing: its caller goes on, `mutex_` is free, and the queue
is where `w`, the run without the call, has it. -/
structure Unharmed (t : Thread) (s w : State Thread T) : Prop where
  caller : s.pc t = .outside
  mutex : s.mutex = 1
  isFull : s.isFull = w.isFull
  isEmpty : s.isEmpty = w.isEmpty
  buffer : s.buffer = w.buffer

/-- What the exceptions of these functions leave: the caller goes on and `buffer_` is
right, but `mutex_` is taken and the first permit of the call is gone. -/
structure Harmed (t : Thread) (act : Act T) (s w : State Thread T) : Prop where
  caller : s.pc t = .outside
  buffer : s.buffer = w.buffer
  taken : s.mutex = 0
  free : w.mutex = 1
  permit : match act with
    | .emplaceThrows _ => s.isFull + 1 = w.isFull ∧ s.isEmpty = w.isEmpty
    | _ => s.isFull = w.isFull ∧ s.isEmpty + 1 = w.isEmpty

theorem Harmed.not_unharmed {t : Thread} {act : Act T} {s w : State Thread T}
    (harmed : Harmed t act s w) : ¬ Unharmed t s w := by
  intro unharmed
  have both := unharmed.mutex.symm.trans harmed.taken
  cases both

section Results
variable [DecidableEq Thread] [DecidableEq T] [Fintype Thread] {capacity : UInt64}
  {s after : State Thread T} {t : Thread} {act : Act T}

theorem harmed_of_throw (inv : Inv capacity s) (throws : act.throws = true)
    (taken : step s (t, act) = some after) : Harmed t act after (withoutCall t s) := by
  have lost := (abandons inv throws taken).mutex
  rcases throws_step throws taken with ⟨inside, rfl⟩
  have free : s.mutex = 0 := lost
  cases act with
  | runs op => cases throws
  | emplaceThrows value =>
      have here := (guarded_eq_some.mp taken).1
      constructor <;> simp [withoutCall, here, free, tookMutex, tookFull, tookEmpty]
  | moveThrows =>
      have here := (guarded_eq_some.mp taken).1.1
      constructor <;> simp [withoutCall, here, free, tookMutex, tookFull, tookEmpty]

/-- The queue survives no exception. Wherever Put or Take throws, in any run, its caller
gets the exception and `buffer_` is as without the call; but `mutex_` stays taken and a
permit is lost, and no Put or Take that is called afterwards ever returns. -/
theorem exception_never_survived {before late : List (Label Thread T)}
    (reached : Reaches step unrestricted (init capacity) (before ++ (t, act) :: late) s)
    (throws : act.throws = true) :
    (∃ early call middle here w, before = early ++ (t, .runs call) :: middle ∧
      (Act.runs call).calls = true ∧ (∀ act, (t, act) ∈ middle → act.calls = false) ∧
      Reaches step unrestricted (init capacity) (before ++ [(t, act)]) here ∧
      Reaches step unrestricted (init capacity)
        (early ++ middle.filter fun label => label.1 ≠ t) w ∧
      Harmed t act here w ∧ ¬ Unharmed t here w) ∧
    s.mutex = 0 ∧
    ∀ u act, (u, act) ∈ late → act.calls = true → waits (s.pc u) = true := by
  rcases reached.around with ⟨last, here, toThrow, _, taken, onwards⟩
  -- A throw after a loss would need somebody inside.
  have inv : Inv capacity last := (inv_or_abandoned toThrow).resolve_right fun abandoned => by
    have inside := (throws_step throws taken).1
    rw [abandoned.nobody t] at inside
    cases inside
  obtain ⟨call, called⟩ := call_of_throw throws taken
  obtain ⟨early, middle, split, calls, others, without⟩ := call_erased toThrow inv called
  have harmed := harmed_of_throw inv throws taken
  obtain ⟨abandoned, forever⟩ := abandoned_forever (abandons inv throws taken) onwards
  exact ⟨⟨early, call, middle, here, _, split, calls, others, .next _ toThrow trivial taken,
    without, harmed, harmed.not_unharmed⟩, abandoned.mutex, forever⟩

/-- The move in Take throws; a Put called after it waits forever. -/
theorem exception_never_survived_take :
    ∃ (trace : List (Label (Fin 2) ℕ)) (s : State (Fin 2) ℕ),
      run step (init 1) trace = some s ∧ s.mutex = 0 ∧ waits (s.pc 1) = true := by
  have ran : run step (init 1 : State (Fin 2) ℕ)
      ([(0, .runs (.callPut 7)), (0, .runs (.putAcquireFull 7)), (0, .runs (.putAcquireMutex 7)),
        (0, .runs (.emplaceBack 7)), (0, .runs .putReleaseMutex), (0, .runs .releaseEmpty),
        (0, .runs .callTake), (0, .runs .takeAcquireEmpty), (0, .runs .takeAcquireMutex)] ++
        (0, .moveThrows) :: [(1, .runs (.callPut 8))]) = some _ := rfl
  have lost := exception_never_survived (run_free ran) rfl
  exact ⟨_, _, ran, lost.2.1, lost.2.2 1 _ (List.mem_singleton_self _) rfl⟩

/-- One thread, one place: the Put throws, and nobody will ever Put or Take again. -/
theorem put_throws : ∃ here w : State (Fin 1) ℕ,
    run step (init 1) [(0, .runs (.callPut 7)), (0, .runs (.putAcquireFull 7)),
      (0, .runs (.putAcquireMutex 7)), (0, .emplaceThrows 7)] = some here ∧
    run step (init 1) [] = some w ∧ ¬ Unharmed 0 here w :=
  ⟨_, _, rfl, rfl, fun unharmed => absurd unharmed.mutex (by decide)⟩

end Results
end ConcurrencyCourse.ThrowingElement
