import ConcurrencyCourse.Atomic

/-!
`PetersonMutex` of tests/stress/peterson_mutex.cpp over SeqCst cells. Its proof
is about one memory; on the buffered machine it holds in the runs in which no
load overtakes a store of its thread.
-/

namespace ConcurrencyCourse.Peterson

open Interleaving StoreBuffer Atomic

/-- `wants_[0]`, `wants_[1]` and `victim_` are atomics, `owner_` is a plain word. -/
inductive Cell where
  | wants (thread : Bool)
  | victim
  | owner
  deriving DecidableEq

def index (me : Bool) : Int64 := if me then 1 else 0

theorem index_injective {t u : Bool} (same : index t = index u) : t = u := by
  cases t <;> cases u <;> simp_all [index]

/-- Program points of a thread that repeats Lock(me); critical section; Unlock().
`first` and `second` are the operands of the loop condition, `releasing` is Unlock
after it has read `owner_`. -/
inductive Pc where
  | outside
  | wanting
  | first
  | second
  | acquired
  | critical
  | releasing (owner : Int64)
  deriving DecidableEq

inductive Op where
  | atomic (call : Call Cell Int64)
  | loadOwner (value : Int64)
  | storeOwner (value : Int64)

def Op.code : Op → Instruction Cell Int64
  | .atomic call => call.access.instruction
  | .loadOwner value => .load .owner value
  | .storeOwner value => .store .owner value

def goes (me : Bool) : Pc → Op → Option Pc
  | .outside, .atomic (.store cell value) => guarded (cell = .wants me ∧ value = 1) .wanting
  | .wanting, .atomic (.store cell value) => guarded (cell = .victim ∧ value = index me) .first
  | .first, .atomic (.load cell value) => guarded (cell = .wants (!me))
      (if value = 1 then .second else .acquired)
  | .second, .atomic (.load cell value) => guarded (cell = .victim)
      (if value = index me then .first else .acquired)
  | .acquired, .storeOwner value => guarded (value = index me) .critical
  | .critical, .loadOwner value => some (.releasing value)
  | .releasing owner, .atomic (.store (.wants thread) value) =>
      guarded (index thread = owner ∧ value = 0) .outside
  | _, _ => none

def peterson : Program Bool Pc Op Cell Int64 := { code := Op.code, goes }

def start : Cell → Int64 := fun _ => 0

def Pc.owns : Pc → Bool
  | .acquired | .critical | .releasing _ => true
  | _ => false

def Pc.waits : Pc → Bool
  | .first | .second => true
  | _ => false

/-- What one memory shows about a thread: `wants_` says whether it is outside,
`owner_` that it is in the critical section; and a rival of an owner that has
passed its store to `victim_` is the victim. -/
structure Sound (s : Shared Bool Cell Int64 Pc) (t : Bool) : Prop where
  wants : s.memory (.wants t) = if s.control t = .outside then 0 else 1
  owner : s.control t = .critical → s.memory .owner = index t
  read : ∀ owner, s.control t = .releasing owner → owner = index t
  alone : (s.control t).owns = true → (s.control (!t)).owns = false
  yields : (s.control t).owns = true → (s.control (!t)).waits = true →
    s.memory .victim = index (!t)

structure Exclusive (s : Shared Bool Cell Int64 Pc) : Prop where
  victim : ∃ t, s.memory .victim = index t
  sound : ∀ t, Sound s t

theorem either (t u : Bool) : u = t ∨ u = !t := by
  cases t <;> cases u <;> simp

inductive Move (me : Bool) : Pc → Instruction Cell Int64 → Pc → Prop where
  | wants : Move me .outside (.store (.wants me) 1) .wanting
  | victim : Move me .wanting (.store .victim (index me)) .first
  | first (value : Int64) : Move me .first (.load (.wants (!me)) value)
      (if value = 1 then .second else .acquired)
  | second (value : Int64) : Move me .second (.load .victim value)
      (if value = index me then .first else .acquired)
  | acquired : Move me .acquired (.store .owner (index me)) .critical
  | critical (value : Int64) : Move me .critical (.load .owner value) (.releasing value)
  | releasing (thread : Bool) :
      Move me (.releasing (index thread)) (.store (.wants thread) 0) .outside

theorem goes_move {me : Bool} {here next : Pc} {op : Op} (moves : goes me here op = some next) :
    Move me here op.code next := by
  unfold goes at moves
  split at moves
  · obtain ⟨⟨rfl, rfl⟩, rfl⟩ := guarded_eq_some.mp moves
    exact .wants
  · obtain ⟨⟨rfl, rfl⟩, rfl⟩ := guarded_eq_some.mp moves
    exact .victim
  · obtain ⟨rfl, rfl⟩ := guarded_eq_some.mp moves
    exact .first _
  · obtain ⟨rfl, rfl⟩ := guarded_eq_some.mp moves
    exact .second _
  · obtain ⟨rfl, rfl⟩ := guarded_eq_some.mp moves
    exact .acquired
  · cases moves
    exact .critical _
  · obtain ⟨⟨rfl, rfl⟩, rfl⟩ := guarded_eq_some.mp moves
    exact .releasing _
  · cases moves

theorem move_step {s after : Shared Bool Cell Int64 Pc} {t : Bool} {op : Op}
    (taken : sharedStep peterson s (t, op) = some after) :
    ∃ next middle, Move t (s.control t) op.code next ∧ s.executes op.code = some middle ∧
      after = { middle with control := Function.update s.control t next } := by
  obtain ⟨next, middle, goes, done, rfl⟩ := sharedStep_eq_some.mp taken
  exact ⟨next, middle, goes_move goes, done, rfl⟩

section Step
variable {s : Shared Bool Cell Int64 Pc} {memory : Cell → Int64} {t : Bool} {next : Pc}

theorem Sound.own (wants : memory (.wants t) = if next = .outside then 0 else 1)
    (owner : next = .critical → memory .owner = index t)
    (read : ∀ owner, next = .releasing owner → owner = index t)
    (alone : next.owns = true → (s.control (!t)).owns = false)
    (yields : next.owns = true → (s.control (!t)).waits = true → memory .victim = index (!t)) :
    Sound { memory, control := Function.update s.control t next } t := by
  constructor <;> simpa

theorem Sound.rival (theirs : Sound s (!t))
    (wants : memory (.wants (!t)) = s.memory (.wants (!t)))
    (owner : s.control (!t) = .critical → memory .owner = s.memory .owner)
    (alone : next.owns = true → (s.control (!t)).owns = false)
    (yields : (s.control (!t)).owns = true → next.waits = true → memory .victim = index t) :
    Sound { memory, control := Function.update s.control t next } (!t) := by
  have still : Function.update s.control t next (!t) = s.control (!t) :=
    Function.update_of_ne (by cases t <;> simp) _ _
  constructor <;> simp only [still, Bool.not_not, Function.update_self]
  · rw [wants, theirs.wants]
  · intro inside
    rw [owner inside, theirs.owner inside]
  · exact theirs.read
  · intro owns
    cases taken : next.owns with
    | false => rfl
    | true => simp [alone taken] at owns
  · exact yields

theorem Exclusive.pair (victim : ∃ t, s.memory .victim = index t) (mine : Sound s t)
    (theirs : Sound s (!t)) : Exclusive s := by
  refine ⟨victim, fun u => ?_⟩
  rcases either t u with rfl | rfl
  · exact mine
  · exact theirs

theorem Exclusive.reads (exclusive : Exclusive s) (inside : s.control t ≠ .outside)
    (still : next ≠ .outside) (owner : next = .critical → s.control t = .critical)
    (read : ∀ owner, next = .releasing owner → owner = index t)
    (alone : next.owns = true → (s.control (!t)).owns = false)
    (yields : next.owns = true → (s.control (!t)).waits = true → s.memory .victim = index (!t))
    (waits : next.waits = true → (s.control t).waits = true) :
    Exclusive { s with control := Function.update s.control t next } := by
  have mine := exclusive.sound t
  have theirs := exclusive.sound (!t)
  refine .pair exclusive.victim (.own ?_ ?_ read alone yields)
    (theirs.rival rfl (fun _ => rfl) alone ?_)
  · rw [mine.wants, if_neg inside, if_neg still]
  · exact fun there => mine.owner (owner there)
  · intro owns waiting
    have victim := theirs.yields owns
    rw [Bool.not_not] at victim
    exact victim (waits waiting)

end Step

theorem exclusive_step (s after : Shared Bool Cell Int64 Pc) (label : Bool × Op)
    (exclusive : Exclusive s) (taken : sharedStep peterson s label = some after) :
    Exclusive after := by
  obtain ⟨t, op⟩ := label
  obtain ⟨next, middle, move, done, rfl⟩ := move_step taken
  have mine := exclusive.sound t
  have theirs := exclusive.sound (!t)
  generalize here : s.control t = pc at move
  generalize op.code = instruction at move done
  cases move with
  | wants =>
      cases done
      exact .pair (t := t) exclusive.victim
        (.own (by simp) (by simp) (by simp) (by simp [Pc.owns]) (by simp [Pc.owns]))
        (theirs.rival (by simp) (fun _ => by simp) (by simp [Pc.owns]) (by simp [Pc.waits]))
  | victim =>
      cases done
      -- The thread makes itself the victim before it waits.
      exact .pair (t := t) ⟨t, by simp⟩
        (.own (by simp [mine.wants, here]) (by simp) (by simp) (by simp [Pc.owns])
          (by simp [Pc.owns]))
        (theirs.rival (by simp) (fun _ => by simp) (by simp [Pc.owns]) (fun _ _ => by simp))
  | first value =>
      obtain ⟨seen, rfl⟩ := guarded_eq_some.mp done
      by_cases wanted : value = 1
      · simp only [wanted, if_pos]
        exact exclusive.reads (by simp [here]) (by simp) (by simp) (by simp) (by simp [Pc.owns])
          (by simp [Pc.owns]) (by simp [here, Pc.waits])
      · -- The other thread is outside.
        have away : s.control (!t) = .outside := by
          by_contra inside
          rw [theirs.wants, if_neg inside] at seen
          exact wanted seen.symm
        simp only [wanted, if_false]
        exact exclusive.reads (by simp [here]) (by simp) (by simp) (by simp)
          (by simp [away, Pc.owns]) (by simp [away, Pc.waits]) (by simp [Pc.waits])
  | second value =>
      obtain ⟨seen, rfl⟩ := guarded_eq_some.mp done
      by_cases still : value = index t
      · simp only [still, if_pos]
        exact exclusive.reads (by simp [here]) (by simp) (by simp) (by simp) (by simp [Pc.owns])
          (by simp [Pc.owns]) (by simp [here, Pc.waits])
      · -- The other thread is the victim, so it is not an owner that this one waits for.
        have rival : s.memory .victim = index (!t) := by
          obtain ⟨u, victim⟩ := exclusive.victim
          rcases either t u with rfl | rfl
          · exact absurd (seen.symm.trans victim) still
          · exact victim
        have alone : (s.control (!t)).owns = false := by
          by_contra owns
          have mine' := theirs.yields (by simpa using owns)
          rw [Bool.not_not, here] at mine'
          exact still (seen.symm.trans (mine' rfl))
        simp only [still, if_false]
        exact exclusive.reads (by simp [here]) (by simp) (by simp) (by simp) (fun _ => alone)
          (fun _ _ => rival) (by simp [Pc.waits])
  | acquired =>
      cases done
      have alone := mine.alone (by simp [here, Pc.owns])
      have yields := mine.yields (by simp [here, Pc.owns])
      exact .pair (t := t) (by simpa using exclusive.victim)
        (.own (by simp [mine.wants, here]) (by simp) (by simp) (fun _ => alone)
          (fun _ waits => by simpa using yields waits))
        (theirs.rival (by simp) (fun inside => by simp [inside, Pc.owns] at alone) (fun _ => alone)
          (by simp [Pc.waits]))
  | critical value =>
      obtain ⟨seen, rfl⟩ := guarded_eq_some.mp done
      exact exclusive.reads (by simp [here]) (by simp) (by simp)
        (fun owner same => by cases same; rw [← seen, mine.owner here])
        (fun _ => mine.alone (by simp [here, Pc.owns]))
        (fun _ => mine.yields (by simp [here, Pc.owns])) (by simp [Pc.waits])
  | releasing thread =>
      cases done
      have self : thread = t := index_injective (mine.read _ here)
      subst self
      exact .pair (t := thread) (by simpa using exclusive.victim)
        (.own (by simp) (by simp) (by simp) (by simp [Pc.owns]) (by simp [Pc.owns]))
        (theirs.rival (by simp) (fun _ => by simp) (by simp [Pc.owns]) (by simp [Pc.waits]))

theorem exclusive_reachable {order : List (Bool × Op)} {shared : Shared Bool Cell Int64 Pc}
    (ran : Reaches (sharedStep peterson) unrestricted
      { memory := start, control := fun _ => .outside } order shared) : Exclusive shared :=
  ran.invariant ⟨⟨false, rfl⟩, fun _ => by constructor <;> simp [Pc.owns, start]⟩
    fun s label after exclusive _ taken => exclusive_step s after label exclusive taken

/-- SeqCst cells are sequentially consistent in the runs in which no load overtakes
an earlier store of its thread to another cell: the calls of such a run have the
results of an interleaving on one memory, for threads that run any program, and
so the mutex admits one thread at a time. -/
theorem seqCst_consistent_without_overtaking {Thread Control Cell' Value : Type}
    [DecidableEq Thread] [DecidableEq Cell'] [DecidableEq Value]
    (client : Thread → Control → Call Cell' Value → Option Control) (memory : Cell' → Value)
    (control : Thread → Control) :
    (∀ trace s, Reaches (step (program client)) (NoOvertaking (program client))
      (init memory control) trace s → Explained client memory control trace s) ∧
    (∀ trace s, Reaches (step peterson) (NoOvertaking peterson) (init start fun _ => .outside)
      trace s → ¬ (s.control false = .critical ∧ s.control true = .critical)) := by
  constructor
  · intro trace s reached
    exact sequentially_consistent reached
  · intro trace s reached both
    obtain ⟨order, shared, ran, same, -⟩ := sequentially_consistent reached
    have alone := ((exclusive_reachable ran).sound false).alone
    rw [same] at alone
    simp [both, Pc.owns] at alone

/-- Each thread's store reaches memory before its load; then one thread enters the
critical section with its store to `owner_` still in its buffer. -/
theorem seqCst_consistent_flushed :
    (∃ trace s,
      Reaches (step (program storeBuffering)) (NoOvertaking (program storeBuffering))
        (init (fun _ => (0 : Int64)) fun _ => .start) trace s ∧
      s.control true = .loaded 1 ∧
      Explained storeBuffering (fun _ => (0 : Int64)) (fun _ => .start) trace s) ∧
    ∃ trace s,
      Reaches (step peterson) (NoOvertaking peterson) (init start fun _ => .outside) trace s ∧
      s.control false = .critical ∧
      ¬ (s.control false = .critical ∧ s.control true = .critical) := by
  have ran : run
      (restricted (step (program storeBuffering)) (NoOvertaking (program storeBuffering)))
      (init (fun _ => (0 : Int64)) fun _ => .start)
      [(false, .executes (.store false 1)), (true, .executes (.store true 1)),
        (false, .flush false 1), (false, .executes (.load true 0)), (true, .flush true 1),
        (true, .executes (.load false 1))] = some _ := rfl
  have entered : run (restricted (step peterson) (NoOvertaking peterson))
      (init start fun _ => .outside)
      [(false, .executes (.atomic (.store (.wants false) 1))),
        (false, .executes (.atomic (.store .victim 0))), (false, .flush (.wants false) 1),
        (false, .flush .victim 0), (false, .executes (.atomic (.load (.wants true) 0))),
        (false, .executes (.storeOwner 0))] = some _ := rfl
  have consistent := seqCst_consistent_without_overtaking storeBuffering (fun _ => (0 : Int64))
    fun _ => .start
  exact ⟨⟨_, _, run_reaches ran, rfl, consistent.1 _ _ (run_reaches ran)⟩, _, _,
    run_reaches entered, rfl, consistent.2 _ _ (run_reaches entered)⟩

theorem peterson_overtaken : ∃ trace s,
    Reaches (step peterson) unrestricted (init start fun _ => .outside) trace s ∧
      s.control false = .critical ∧ s.control true = .critical := by
  have ran : run (step peterson) (init start fun _ => .outside)
      [(false, .executes (.atomic (.store (.wants false) 1))),
        (false, .executes (.atomic (.store .victim 0))),
        (true, .executes (.atomic (.store (.wants true) 1))),
        (true, .executes (.atomic (.store .victim 1))),
        (false, .executes (.atomic (.load (.wants true) 0))), (false, .executes (.storeOwner 0)),
        (true, .executes (.atomic (.load (.wants false) 0))),
        (true, .executes (.storeOwner 1))] = some _ := rfl
  exact ⟨_, _, run_free ran, rfl, rfl⟩

end ConcurrencyCourse.Peterson
