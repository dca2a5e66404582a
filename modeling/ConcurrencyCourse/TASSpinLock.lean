import ConcurrencyCourse.StoreBuffer
import ConcurrencyCourse.Fairness

/-!
`TASSpinLock` of tasks/mutex/spinlock on the buffered machine, with the shared data
it protects. Unlock is a plain store: it may wait in the owner's buffer behind the
owner's writes to the data. The next owner's `xchg` finds 0 in memory only after
the whole buffer has drained.
-/

namespace ConcurrencyCourse.TASSpinLock

open Interleaving StoreBuffer

section Routines
variable {Cell Value : Type}

def atomicLoad (cell : Cell) (value : Value) : Instruction Cell Value := .load cell value

def atomicStore (cell : Cell) (value : Value) : Instruction Cell Value := .store cell value

def atomicExchange (cell : Cell) (old new : Value) : Instruction Cell Value :=
  .exchange cell old new

end Routines

inductive Cell (Data : Type) where
  | locked
  | data (word : Data)
  deriving DecidableEq

/-- Program points of a thread that repeats Lock() or TryLock(); critical section;
Unlock(). `locking` stands before the `xchg` of the loop of Lock. -/
inductive Pc where
  | outside
  | locking
  | critical
  deriving DecidableEq

inductive Op (Data : Type) where
  | exchange (old : Int64)
  | tryLoad (value : Int64)
  | read (word : Data) (value : Int64)
  | write (word : Data) (value : Int64)
  | unlock

variable {Thread Data : Type}

def Op.code : Op Data → Instruction (Cell Data) Int64
  | .exchange old => atomicExchange .locked old 1
  | .tryLoad value => atomicLoad .locked value
  | .read word value => .load (.data word) value
  | .write word value => .store (.data word) value
  | .unlock => atomicStore .locked 0

def afterExchange (old : Int64) : Pc := if old ≠ 0 then .locking else .critical

def goes (_ : Thread) : Pc → Op Data → Option Pc
  | .outside, .exchange old => some (afterExchange old)
  | .locking, .exchange old => some (afterExchange old)
  | .outside, .tryLoad value => some (if value = 1 then .outside else .locking)
  | .critical, .read _ _ => some .critical
  | .critical, .write _ _ => some .critical
  | .critical, .unlock => some .outside
  | _, _ => none

def clients (Thread Data : Type) : Program Thread Pc (Op Data) (Cell Data) Int64 :=
  { code := Op.code, goes }

def start (initial : Data → Int64) : Cell Data → Int64
  | .locked => 0
  | .data word => initial word

theorem away_update [DecidableEq Thread] {control : Thread → Pc} {t : Thread} {next : Pc}
    (out : next ≠ .critical) (away : ∀ u, u ≠ t → control u ≠ .critical) (u : Thread) :
    Function.update control t next u ≠ .critical := by
  by_cases self : u = t
  · simpa [self] using out
  · simpa [self] using away u self

variable [DecidableEq Data]

def wrote (content : Data → Int64) : Thread × Act (Op Data) (Cell Data) Int64 → Data → Int64
  | (_, .executes (.write word value)) => Function.update content word value
  | _ => content

/-- The last write to each word in the order of execution, hence of the sections. -/
def lastWrites (initial : Data → Int64) :
    List (Thread × Act (Op Data) (Cell Data) Int64) → Data → Int64 :=
  List.foldl wrote initial

/-- Nobody owns the lock; somebody is in the critical section; or the last owner has
left and its 0 is still the newest store of its buffer. -/
inductive Phase (content : Data → Int64) (s : StoreBuffer.State Thread (Cell Data) Int64 Pc) :
    Prop where
  | free (locked : s.memory .locked = 0) (empty : ∀ t, s.buffer t = [])
      (away : ∀ t, s.control t ≠ .critical) (holds : ∀ word, s.memory (.data word) = content word)
  | held (t : Thread) (locked : s.memory .locked = 1) (inside : s.control t = .critical)
      (plain : ∀ entry ∈ s.buffer t, entry.1 ≠ .locked) (empty : ∀ u, u ≠ t → s.buffer u = [])
      (away : ∀ u, u ≠ t → s.control u ≠ .critical)
      (holds : ∀ word, drained s.memory (s.buffer t) (.data word) = content word)
  | leaving (t : Thread) (writes : List (Cell Data × Int64)) (locked : s.memory .locked = 1)
      (waits : s.buffer t = writes ++ [(.locked, 0)]) (plain : ∀ entry ∈ writes, entry.1 ≠ .locked)
      (empty : ∀ u, u ≠ t → s.buffer u = []) (away : ∀ u, s.control u ≠ .critical)
      (holds : ∀ word, drained s.memory (s.buffer t) (.data word) = content word)

section Phases
variable {content : Data → Int64} {s : StoreBuffer.State Thread (Cell Data) Int64 Pc} {t : Thread}

theorem Phase.owner (phase : Phase content s) (inside : s.control t = .critical) :
    s.memory .locked = 1 ∧ (∀ entry ∈ s.buffer t, entry.1 ≠ .locked) ∧
      (∀ u, u ≠ t → s.buffer u = []) ∧ (∀ u, u ≠ t → s.control u ≠ .critical) ∧
      ∀ word, drained s.memory (s.buffer t) (.data word) = content word := by
  cases phase with
  | free locked empty away holds => exact absurd inside (away t)
  | held u locked there plain empty away holds =>
      have same : t = u := by
        by_contra other
        exact away t other inside
      subst same
      exact ⟨locked, plain, empty, away, holds⟩
  | leaving u writes locked waits plain empty away holds => exact absurd inside (away t)

theorem Phase.unique (phase : Phase content s) {u : Thread} (first : s.control t = .critical)
    (second : s.control u = .critical) : t = u := by
  by_contra other
  exact (phase.owner second).2.2.2.1 t other first

theorem Phase.reads (phase : Phase content s) (inside : s.control t = .critical) (word : Data) :
    s.sees t (.data word) = content word := by
  rw [s.sees_eq_drained]
  exact (phase.owner inside).2.2.2.2 word

variable [DecidableEq Thread] {next : Pc}

theorem Phase.outside (phase : Phase content s) (out : s.control t ≠ .critical)
    (still : next ≠ .critical) :
    Phase content { s with control := Function.update s.control t next } := by
  cases phase with
  | free locked empty away holds =>
      exact .free locked empty (away_update still fun u _ => away u) holds
  | held u locked inside plain empty away holds =>
      have other : u ≠ t := by
        rintro rfl
        exact out inside
      refine .held u locked (by simpa [other] using inside) plain empty
        (fun v different => ?_) holds
      by_cases self : v = t
      · simpa [self] using still
      · simpa [self] using away v different
  | leaving u writes locked waits plain empty away holds =>
      exact .leaving u writes locked waits plain empty (away_update still fun v _ => away v) holds

/-- The `xchg` finds 0 only where all buffers are empty, and takes the lock; otherwise
it finds 1 and leaves 1. -/
theorem Phase.exchanged (phase : Phase content s) (out : s.control t ≠ .critical)
    {old : Int64} (found : s.memory .locked = old) :
    Phase content
      { s with
        memory := Function.update s.memory .locked 1
        control := Function.update s.control t (afterExchange old) } := by
  have taken : s.memory .locked = 1 → Phase content
      { s with
        memory := Function.update s.memory .locked 1
        control := Function.update s.control t (afterExchange old) } := by
    intro locked
    have same : Function.update s.memory .locked 1 = s.memory := by
      rw [← locked, Function.update_eq_self]
    have busy : afterExchange old ≠ .critical := by
      rw [← found, locked]
      decide
    rw [same]
    exact phase.outside out busy
  cases phase with
  | free locked empty away holds =>
      have free : afterExchange old = .critical := by
        rw [← found, locked]
        rfl
      rw [free]
      refine .held t (by simp) (by simp) (by simp [empty t]) (fun u _ => empty u)
        (fun u other => by simpa [other] using away u) fun word => ?_
      simpa [empty t] using holds word
  | held u locked inside plain empty away holds => exact taken locked
  | leaving u writes locked waits plain empty away holds => exact taken locked

theorem Phase.writes (phase : Phase content s) (inside : s.control t = .critical) (word : Data)
    (value : Int64) : Phase (Function.update content word value)
      { s with
        buffer := Function.update s.buffer t (s.buffer t ++ [(.data word, value)])
        control := Function.update s.control t .critical } := by
  obtain ⟨locked, plain, empty, away, holds⟩ := phase.owner inside
  refine .held t locked (by simp) ?_ (fun u other => by simpa [other] using empty u other)
    (fun u other => by simpa [other] using away u other) fun target => ?_
  · intro entry member
    simp only [Function.update_self, List.mem_append, List.mem_singleton] at member
    rcases member with earlier | rfl
    · exact plain entry earlier
    · simp
  · simp only [Function.update_self, drained_append, drained_cons, drained_nil]
    by_cases same : target = word
    · simp [same]
    · simpa [same] using holds target

theorem Phase.unlocks (phase : Phase content s) (inside : s.control t = .critical) :
    Phase content
      { s with
        buffer := Function.update s.buffer t (s.buffer t ++ [(.locked, 0)])
        control := Function.update s.control t .outside } := by
  obtain ⟨locked, plain, empty, away, holds⟩ := phase.owner inside
  refine .leaving t (s.buffer t) locked (by simp) plain
    (fun u other => by simpa [other] using empty u other) (away_update (by simp) away)
    fun word => ?_
  simp only [Function.update_self, drained_append, drained_cons, drained_nil]
  simpa using holds word

theorem Phase.flushes (phase : Phase content s) {cell : Cell Data} {value : Int64}
    {newer : List (Cell Data × Int64)} (oldest : s.buffer t = (cell, value) :: newer) :
    Phase content
      { s with
        memory := Function.update s.memory cell value
        buffer := Function.update s.buffer t newer } := by
  cases phase with
  | free locked empty away holds => simp [empty t] at oldest
  | held u locked inside plain empty away holds =>
      have self : t = u := by
        by_contra other
        simp [empty t other] at oldest
      subst self
      have word' : cell ≠ .locked := plain (cell, value) (by simp [oldest])
      rw [oldest] at plain holds
      exact .held t (by simpa [word'.symm] using locked) inside
        (by simpa using fun a b member => plain (a, b) (by simp [member]))
        (fun u other => by simpa [other] using empty u other) away (by simpa using holds)
  | leaving u writes locked waits plain empty away holds =>
      have self : t = u := by
        by_contra other
        simp [empty t other] at oldest
      subst self
      rw [oldest] at holds
      rw [oldest] at waits
      cases writes with
      | nil =>
          -- The 0 of Unlock itself: now the lock is free.
          obtain ⟨⟨rfl, rfl⟩, rfl⟩ : (cell = .locked ∧ value = 0) ∧ newer = [] := by
            simpa using waits
          refine .free (by simp) (fun u => ?_) away (by simpa using holds)
          by_cases self : u = t
          · simp [self]
          · simpa [self] using empty u self
      | cons first rest =>
          obtain ⟨rfl, rfl⟩ : (cell, value) = first ∧ newer = rest ++ [(.locked, 0)] := by
            simpa using waits
          have word' : cell ≠ .locked := plain (cell, value) (by simp)
          exact .leaving t rest (by simpa [word'.symm] using locked) (by simp)
            (fun entry member => plain entry (by simp [member]))
            (fun u other => by simpa [other] using empty u other) away (by simpa using holds)

end Phases

section Runs
variable [DecidableEq Thread] {initial : Data → Int64}
  {s after : StoreBuffer.State Thread (Cell Data) Int64 Pc}

theorem phase_step {content : Data → Int64} {label : Thread × Act (Op Data) (Cell Data) Int64}
    (phase : Phase content s) (taken : step (clients Thread Data) s label = some after) :
    Phase (wrote content label) after := by
  obtain ⟨t, act⟩ := label
  cases act with
  | flush cell value =>
      obtain ⟨newer, oldest, rfl⟩ := step_flush.mp taken
      exact phase.flushes oldest
  | executes op =>
      obtain ⟨next, middle, moves, done, rfl⟩ := step_executes.mp taken
      generalize stands : s.control t = pc at moves
      cases op with
      | exchange old =>
          obtain ⟨⟨-, found⟩, rfl⟩ := guarded_eq_some.mp done
          have out : s.control t ≠ .critical := by
            rw [stands]
            rintro rfl
            cases moves
          have there : afterExchange old = next := by
            cases pc <;> simp_all [clients, goes]
          exact there ▸ phase.exchanged out found
      | tryLoad value =>
          obtain ⟨-, rfl⟩ := guarded_eq_some.mp done
          cases pc with
          | outside =>
              cases moves
              exact phase.outside (by simp [stands]) (by split <;> simp)
          | locking => cases moves
          | critical => cases moves
      | read word value =>
          obtain ⟨-, rfl⟩ := guarded_eq_some.mp done
          cases pc with
          | outside => cases moves
          | locking => cases moves
          | critical =>
              cases moves
              rw [← stands, Function.update_eq_self]
              exact phase
      | write word value =>
          cases done
          cases pc with
          | outside => cases moves
          | locking => cases moves
          | critical =>
              cases moves
              exact phase.writes stands word value
      | unlock =>
          cases done
          cases pc with
          | outside => cases moves
          | locking => cases moves
          | critical =>
              cases moves
              exact phase.unlocks stands

theorem phase_reached {trace : List (Thread × Act (Op Data) (Cell Data) Int64)}
    (reached : Reaches (step (clients Thread Data)) unrestricted
      (init (start initial) fun _ => .outside) trace s) : Phase (lastWrites initial trace) s := by
  induction reached with
  | start => exact .free rfl (fun _ => rfl) (fun _ inside => by cases inside) fun _ => rfl
  | next label _ _ taken ih =>
      rw [lastWrites, List.foldl_append]
      exact phase_step ih taken

/-- The lock with a plain store in Unlock is sound on the buffered machine: one
thread at a time is in its critical section, and a read there returns the last
write to the word, by whichever owner it was. -/
theorem spin_lock_sound (trace : List (Thread × Act (Op Data) (Cell Data) Int64))
    (s : StoreBuffer.State Thread (Cell Data) Int64 Pc)
    (reached : Reaches (step (clients Thread Data)) unrestricted
      (init (start initial) fun _ => .outside) trace s) :
    (∀ t u, s.control t = .critical → s.control u = .critical → t = u) ∧
      ∀ early late t word value, trace = early ++ (t, .executes (.read word value)) :: late →
        value = lastWrites initial early word := by
  constructor
  · intro t u first second
    exact (phase_reached reached).unique first second
  · rintro early late t word value rfl
    obtain ⟨before, after, earlier, -, taken, -⟩ := reached.around
    obtain ⟨next, middle, moves, done, -⟩ := step_executes.mp taken
    have seen : before.sees t (.data word) = value := (guarded_eq_some.mp done).1
    have inside : before.control t = .critical := by
      cases stands : before.control t <;> simp_all [clients, goes]
    rw [← seen, (phase_reached earlier).reads inside]

/-- The second owner comes while the first one's TryLock sees its own 0 in its buffer,
and reads what the first one wrote. -/
theorem spin_lock_sound_handover : ∃ (trace : List (Bool × Act (Op Unit) (Cell Unit) Int64))
    (s : StoreBuffer.State Bool (Cell Unit) Int64 Pc),
    run (step (clients Bool Unit)) (init (start fun _ => 0) fun _ => .outside) trace = some s ∧
      s.control true = .critical ∧
      (∀ t u, s.control t = .critical → s.control u = .critical → t = u) ∧
      ∀ early late t word value, trace = early ++ (t, .executes (.read word value)) :: late →
        value = lastWrites (fun _ => 0) early word := by
  have ran : run (step (clients Bool Unit)) (init (start fun _ => 0) fun _ => .outside)
      [(false, .executes (.exchange 0)), (false, .executes (.write () 5)),
        (true, .executes (.tryLoad 1)), (false, .executes .unlock), (false, .executes (.tryLoad 0)),
        (false, .flush (.data ()) 5), (false, .flush .locked 0), (true, .executes (.exchange 0)),
        (true, .executes (.read () 5))] = some _ := rfl
  exact ⟨_, _, ran, rfl, spin_lock_sound _ _ (run_free ran)⟩

end Runs

/-! Progress and starvation. A thread inside Lock or its critical section owes steps, and
every buffer owes its flushes. -/
section Progress
open Fairness

inductive Duty (Thread : Type) where
  | thread (t : Thread)
  | buffer (t : Thread)

def owes : Duty Thread → StoreBuffer.State Thread (Cell Data) Int64 Pc →
    Thread × Act (Op Data) (Cell Data) Int64 → Prop
  | .thread t, s, (u, .executes _) => u = t ∧ s.control t ≠ .outside
  | .buffer t, _, (u, .flush _ _) => u = t
  | _, _, _ => False

variable [DecidableEq Thread] {initial : Data → Int64}
  {s after : StoreBuffer.State Thread (Cell Data) Int64 Pc} {t u : Thread}

/-- Where nobody is in the critical section, a step is an `xchg`, a load of TryLock or a
flush; only the flush changes a buffer. -/
theorem unowned_step (away : ∀ v, s.control v ≠ .critical)
    {label : Thread × Act (Op Data) (Cell Data) Int64}
    (taken : step (clients Thread Data) s label = some after) :
    (∃ v op, label = (v, .executes op) ∧ after.buffer = s.buffer ∧
      (∀ w, w ≠ v → after.control w = s.control w) ∧
      (s.control v = .locking → after.control v = afterExchange (s.memory .locked))) ∨
    ∃ v cell value newer, label = (v, .flush cell value) ∧ s.buffer v = (cell, value) :: newer ∧
      after.buffer = Function.update s.buffer v newer ∧ after.control = s.control := by
  obtain ⟨v, act⟩ := label
  cases act with
  | flush cell value =>
      obtain ⟨newer, oldest, rfl⟩ := step_flush.mp taken
      exact .inr ⟨v, cell, value, newer, rfl, oldest, rfl, rfl⟩
  | executes op =>
      obtain ⟨next, middle, moves, done, rfl⟩ := step_executes.mp taken
      generalize stands : s.control v = pc at moves
      have outside : pc ≠ .critical := stands ▸ away v
      refine .inl ⟨v, op, rfl, ?_, fun w other => by simp [other], ?_⟩
      · cases op with
        | exchange old =>
            obtain ⟨-, rfl⟩ := guarded_eq_some.mp done
            rfl
        | tryLoad value =>
            obtain ⟨-, rfl⟩ := guarded_eq_some.mp done
            rfl
        | read word value | write word value | unlock =>
            cases pc with
            | outside | locking => cases moves
            | critical => exact absurd rfl outside
      · intro locking
        cases stands.symm.trans locking
        cases op with
        | exchange old =>
            obtain ⟨⟨-, found⟩, rfl⟩ := guarded_eq_some.mp done
            cases moves
            simp [found]
        | tryLoad | read | write | unlock => cases moves

structure Waits (t : Thread) (s : StoreBuffer.State Thread (Cell Data) Int64 Pc) : Prop where
  locking : s.control t = .locking
  away : ∀ v, s.control v ≠ .critical
  phase : ∃ content, Phase content s

def Owned (s : StoreBuffer.State Thread (Cell Data) Int64 Pc) : Prop :=
  ∃ v, s.control v = .critical

theorem Waits.kept (waits : Waits t s) {label : Thread × Act (Op Data) (Cell Data) Int64}
    (taken : step (clients Thread Data) s label = some after) : Owned after ∨ Waits t after := by
  by_cases owned : Owned after
  · exact .inl owned
  refine .inr ⟨?_, fun v inside => owned ⟨v, inside⟩, ?_⟩
  · rcases unowned_step waits.away taken with
      ⟨v, op, -, -, others, mine⟩ | ⟨v, cell, value, newer, -, -, -, same⟩
    · by_cases self : t = v
      · subst self
        by_cases free : s.memory .locked = 0
        · exact absurd ⟨t, by simp [mine waits.locking, free, afterExchange]⟩ owned
        · simp [mine waits.locking, afterExchange, free]
      · rw [others t self]
        exact waits.locking
    · rw [same]
      exact waits.locking
  · obtain ⟨content, phase⟩ := waits.phase
    exact ⟨_, phase_step phase taken⟩

omit [DecidableEq Thread] in
theorem Phase.free_of_empty {content : Data → Int64} (phase : Phase content s)
    (away : ∀ v, s.control v ≠ .critical) (empty : ∀ v, s.buffer v = []) :
    s.memory .locked = 0 := by
  cases phase with
  | free locked => exact locked
  | held v locked inside => exact absurd inside (away v)
  | leaving v writes locked waits => simp [empty v] at waits

theorem Phase.of_buffer {content : Data → Int64} (phase : Phase content s)
    (away : ∀ v, s.control v ≠ .critical) (pending : s.buffer u ≠ []) :
    ∀ v, v ≠ u → s.buffer v = [] := by
  cases phase with
  | free locked empty => exact absurd (empty u) pending
  | held v locked inside => exact absurd inside (away v)
  | leaving v writes locked waits plain empty =>
      have same : u = v := by
        by_contra other
        exact pending (empty u other)
      exact fun w other => empty w (same ▸ other)

theorem drains (t u : Thread) :
    Measure (step (clients Thread Data)) owes (fun s => Waits t s ∧ s.buffer u ≠ [])
      (fun s => Owned s ∨ Waits t s ∧ ∀ v, s.buffer v = []) (fun s => (s.buffer u).length)
      fun duty _ => duty = .buffer u := by
  refine ⟨fun _ _ => ⟨_, rfl⟩, ?_, ?_⟩
  · rintro s _ ⟨waits, pending⟩ rfl
    obtain ⟨⟨cell, value⟩, newer, stands⟩ := List.exists_cons_of_ne_nil pending
    exact ⟨(u, .flush cell value), rfl, by simp [step, stands]⟩
  · rintro s _ label after ⟨waits, pending⟩ rfl taken
    obtain ⟨content, phase⟩ := waits.phase
    have alone := phase.of_buffer waits.away pending
    rcases waits.kept taken with owned | again
    · exact .inl (.inl owned)
    rcases unowned_step waits.away taken with
      ⟨v, op, rfl, same, -, -⟩ | ⟨v, cell, value, newer, rfl, oldest, drained, -⟩
    · exact .inr ⟨⟨again, same ▸ pending⟩, .inr ⟨by rw [same], rfl, by simp [owes]⟩⟩
    · have self : v = u := by
        by_contra other
        simp [alone v other] at oldest
      subst self
      cases newer with
      | nil =>
          refine .inl (.inr ⟨again, fun w => ?_⟩)
          by_cases self : w = v
          · simp [drained, self]
          · simpa [drained, self] using alone w self
      | cons entry rest =>
          exact .inr ⟨⟨again, by simp [drained]⟩, .inl (by simp [drained, oldest])⟩

/-- Progress under weak fairness: whenever a thread is inside Lock, some thread owns the
lock then or later. -/
theorem lock_progress
    (e : Execution (step (clients Thread Data)) (init (start initial) fun _ => .outside))
    (fair : e.Fair owes) (t : Thread) :
    e.LeadsTo (fun s => s.control t = .locking) fun s => ∃ u, s.control u = .critical := by
  have free : e.LeadsTo (fun s => Waits t s ∧ ∀ v, s.buffer v = []) Owned := by
    refine Execution.leadsTo_by fair (.thread t) ?_ ?_
    · rintro s ⟨waits, empty⟩
      refine ⟨(t, .executes (.exchange (s.memory .locked))), ⟨rfl, by simp [waits.locking]⟩, ?_⟩
      simp [step, clients, goes, waits.locking, Op.code, atomicExchange, State.executes, empty t,
        guarded]
    · rintro s label after ⟨waits, empty⟩ taken
      obtain ⟨content, phase⟩ := waits.phase
      have zero := phase.free_of_empty waits.away empty
      rcases waits.kept taken with owned | again
      · exact .inl owned
      rcases unowned_step waits.away taken with
        ⟨v, op, rfl, same, -, mine⟩ | ⟨v, cell, value, newer, -, oldest, -, -⟩
      · refine .inr ⟨⟨again, same ▸ empty⟩, ?_⟩
        rintro ⟨rfl, -⟩
        have locking := again.locking
        rw [mine waits.locking, zero] at locking
        cases locking
      · simp [empty v] at oldest
  intro n locking
  by_cases owned : Owned (e.state n)
  · exact ⟨n, le_rfl, owned⟩
  obtain ⟨trace, reached⟩ := e.reaches n
  have waits : Waits t (e.state n) :=
    ⟨locking, fun v inside => owned ⟨v, inside⟩, _, phase_reached reached⟩
  by_cases empty : ∀ v, (e.state n).buffer v = []
  · exact free n ⟨waits, empty⟩
  · obtain ⟨u, pending⟩ := not_forall.mp empty
    exact (((drains t u).leadsTo fair).through
      ((Execution.LeadsTo.arrived fun _ there => there).either free)) n ⟨waits, pending⟩

def contended (u t : Thread) : List (Thread × Act (Op Data) (Cell Data) Int64) :=
  [(u, .executes (.exchange 0)), (t, .executes (.exchange 1)), (u, .executes .unlock),
    (u, .flush .locked 0)]

structure Calm (u t : Thread) (s : StoreBuffer.State Thread (Cell Data) Int64 Pc) : Prop where
  free : s.memory .locked = 0
  empty : ∀ v, s.buffer v = []
  idle : s.control u = .outside
  out : s.control t ≠ .critical

theorem Calm.contended_run (calm : Calm u t s) (different : t ≠ u) :
    run (step (clients Thread Data)) s (contended u t) =
      some { s with control := Function.update s.control t .locking } := by
  obtain ⟨free, empty, idle, out⟩ := calm
  have takes : step (clients Thread Data) s (u, .executes (.exchange 0)) = some
      { s with
        memory := Function.update s.memory .locked 1
        control := Function.update s.control u .critical } := by
    rw [step_executes]
    exact ⟨.critical, { s with memory := Function.update s.memory .locked 1 }, by rw [idle]; rfl,
      by simp [clients, Op.code, atomicExchange, State.executes, empty u, free], rfl⟩
  have fails : step (clients Thread Data)
      { s with
        memory := Function.update s.memory .locked 1
        control := Function.update s.control u .critical } (t, .executes (.exchange 1)) = some
      { s with
        memory := Function.update s.memory .locked 1
        control := Function.update (Function.update s.control u .critical) t .locking } := by
    rw [step_executes]
    refine ⟨.locking,
      { s with
        memory := Function.update s.memory .locked 1
        control := Function.update s.control u .critical }, ?_, ?_, rfl⟩
    · cases there : s.control t with
      | critical => exact absurd there out
      | outside | locking => simp [different, there, clients, goes, afterExchange]
    · simp [clients, Op.code, atomicExchange, State.executes, empty t]
  have unlocks : step (clients Thread Data)
      { s with
        memory := Function.update s.memory .locked 1
        control := Function.update (Function.update s.control u .critical) t .locking }
      (u, .executes .unlock) = some
      { s with
        memory := Function.update s.memory .locked 1
        buffer := Function.update s.buffer u [(.locked, 0)]
        control := Function.update s.control t .locking } := by
    rw [step_executes]
    refine ⟨.outside,
      { s with
        memory := Function.update s.memory .locked 1
        buffer := Function.update s.buffer u [(.locked, 0)]
        control := Function.update (Function.update s.control u .critical) t .locking }, ?_, ?_, ?_⟩
    · simp [different.symm, clients, goes]
    · simp [clients, Op.code, atomicStore, State.executes, empty u]
    · have back : Function.update s.control u .outside = s.control := by
        rw [← idle, Function.update_eq_self]
      simp only [StoreBuffer.State.mk.injEq, true_and]
      rw [Function.update_comm different, Function.update_idem, back]
  have flushes : step (clients Thread Data)
      { s with
        memory := Function.update s.memory .locked 1
        buffer := Function.update s.buffer u [(.locked, 0)]
        control := Function.update s.control t .locking } (u, .flush .locked 0) =
      some { s with control := Function.update s.control t .locking } := by
    rw [step_flush]
    have memory : Function.update s.memory .locked 0 = s.memory := by
      rw [← free, Function.update_eq_self]
    have buffer : Function.update s.buffer u [] = s.buffer := by
      rw [← empty u, Function.update_eq_self]
    exact ⟨[], by simp, by simp [memory, buffer]⟩
  simp [contended, run, takes, fails, unlocks, flushes]

theorem control_elsewhere {label : Thread × Act (Op Data) (Cell Data) Int64}
    (taken : step (clients Thread Data) s label = some after) (other : t ≠ label.1) :
    after.control t = s.control t := by
  obtain ⟨v, act⟩ := label
  cases act with
  | flush cell value =>
      obtain ⟨newer, -, rfl⟩ := step_flush.mp taken
      rfl
  | executes op =>
      obtain ⟨next, middle, -, -, rfl⟩ := step_executes.mp taken
      simp [show t ≠ v from other]

theorem unlock_inside (taken : step (clients Thread Data) s (t, .executes .unlock) = some after) :
    s.control t = .critical := by
  obtain ⟨next, middle, moves, -, -⟩ := step_executes.mp taken
  cases here : s.control t with
  | outside | locking =>
      rw [here] at moves
      cases moves
  | critical => rfl

/-- Two threads, one of which finds the lock taken and gets it afterwards, again and
again. -/
theorem lock_progress_contended :
    ∃ e : Execution (step (clients Bool Unit)) (init (start fun _ => 0) fun _ => .outside),
      e.Fair owes ∧ (∀ n, ∃ m, n ≤ m ∧ e.label m = some (true, .executes (.exchange 1))) ∧
        e.LeadsTo (fun s => s.control true = .locking) fun s => ∃ u, s.control u = .critical := by
  let before : StoreBuffer.State Bool (Cell Unit) Int64 Pc :=
    init (start fun _ => 0) fun _ => .outside
  let waiting : StoreBuffer.State Bool (Cell Unit) Int64 Pc :=
    { before with control := Function.update before.control true .locking }
  let gets : List (Bool × Act (Op Unit) (Cell Unit) Int64) :=
    [(true, .executes (.exchange 0)), (true, .executes .unlock), (true, .flush .locked 0)]
  have first : run (step (clients Bool Unit)) before (contended false true) = some waiting :=
    Calm.contended_run ⟨rfl, fun _ => rfl, rfl, by simp [before, init]⟩ (by decide)
  have second : run (step (clients Bool Unit)) waiting gets = some before := by
    have ran : run (step (clients Bool Unit)) waiting gets = some _ := rfl
    rw [ran, Option.some.injEq, StoreBuffer.State.mk.injEq]
    refine ⟨funext fun cell => ?_, funext fun t => ?_, funext fun t => ?_⟩
    · cases cell <;> rfl
    · cases t <;> rfl
    · cases t <;> rfl
  have around : run (step (clients Bool Unit)) before (contended false true ++ gets) =
      some before := by
    rw [run_append, first, Option.bind_some, second]
  have fair : (Execution.cycle around (by simp [gets])).Fair owes := by
    rintro (t | t) n -
    · have member : (t, .executes .unlock) ∈ contended false true ++ gets := by
        cases t <;> simp [contended, gets]
      obtain ⟨m, later, here⟩ := Execution.cycle_label member n
      exact ⟨m, later, _, here, rfl, by rw [unlock_inside (Execution.takes here)]; simp⟩
    · have member : (t, .flush .locked 0) ∈ contended false true ++ gets := by
        cases t <;> simp [contended, gets]
      obtain ⟨m, later, here⟩ := Execution.cycle_label member n
      exact ⟨m, later, _, here, rfl⟩
  exact ⟨_, fair, Execution.cycle_label (by simp [contended]), lock_progress _ fair true⟩

/-- The lock is not starvation free: some fair execution lets one thread have the lock
again and again while another one stays inside Lock forever. -/
theorem lock_starves (initial : Data → Int64) (different : t ≠ u) :
    ∃ trace s, ∃ e : Execution (step (clients Thread Data)) s,
      Reaches (step (clients Thread Data)) unrestricted (init (start initial) fun _ => .outside)
        trace s ∧
      e.Fair owes ∧ (∀ n, (e.state n).control t = .locking) ∧
      ∀ n, ∃ m, n ≤ m ∧ (e.state m).control u = .critical := by
  let before : StoreBuffer.State Thread (Cell Data) Int64 Pc :=
    init (start initial) fun _ => .outside
  have begins : Calm u t before := ⟨rfl, fun _ => rfl, rfl, by simp [before, init]⟩
  let stuck : StoreBuffer.State Thread (Cell Data) Int64 Pc :=
    { before with control := Function.update before.control t .locking }
  have calm : Calm u t stuck :=
    ⟨rfl, fun _ => rfl, by simp [stuck, different.symm, before, init], by simp [stuck]⟩
  have around : run (step (clients Thread Data)) stuck (contended u t) = some stuck := by
    rw [calm.contended_run different]
    simp [stuck]
  have positive : 0 < (contended u t : List (Thread × Act (Op Data) (Cell Data) Int64)).length := by
    simp [contended]
  let e := Execution.cycle around positive
  have locking (n : ℕ) : (e.state n).control t = .locking := by
    refine Execution.cycle_keeps
      (fun s : StoreBuffer.State Thread (Cell Data) Int64 Pc => s.control t = .locking)
      (by simp [stuck]) ?_ n
    intro s label after member here taken
    by_cases self : t = label.1
    · -- Of the labels only the failing exchange is this thread's.
      have fails : label = (t, .executes (.exchange 1)) := by
        simp only [contended, List.mem_cons, List.not_mem_nil, or_false] at member
        rcases member with rfl | rfl | rfl | rfl
        · exact absurd self different
        · rfl
        · exact absurd self different
        · exact absurd self different
      subst fails
      obtain ⟨next, middle, moves, -, rfl⟩ := step_executes.mp taken
      rw [here] at moves
      cases moves
      simp [afterExchange]
    · rw [control_elsewhere taken self, here]
  have returns (n : ℕ) : ∃ m, n ≤ m ∧ e.state m = stuck := Execution.cycle_returns n
  have again (label : Thread × Act (Op Data) (Cell Data) Int64) (member : label ∈ contended u t)
      (n : ℕ) : ∃ m, n ≤ m ∧ e.label m = some label := Execution.cycle_label member n
  refine ⟨contended u t, stuck, e, run_free (begins.contended_run different), ?_, locking, ?_⟩
  · rintro (v | v) n ready
    · by_cases waiting : v = t
      · obtain ⟨m, later, here⟩ := again (t, .executes (.exchange 1)) (by simp [contended]) n
        exact ⟨m, later, _, here, waiting.symm, by rw [waiting, locking m]; simp⟩
      by_cases winning : v = u
      · obtain ⟨m, later, here⟩ := again (u, .executes .unlock) (by simp [contended]) n
        exact ⟨m, later, _, here, winning.symm, by
          rw [winning, unlock_inside (Execution.takes here)]; simp⟩
      · obtain ⟨m, later, back⟩ := returns n
        obtain ⟨⟨w, act⟩, owed, -⟩ := ready m later
        rw [back] at owed
        cases act with
        | executes op => exact absurd (by simp [stuck, waiting, before, init]) owed.2
        | flush cell value => exact owed.elim
    · by_cases winning : v = u
      · obtain ⟨m, later, here⟩ := again (u, .flush .locked 0) (by simp [contended]) n
        exact ⟨m, later, _, here, winning.symm⟩
      · obtain ⟨m, later, back⟩ := returns n
        obtain ⟨⟨w, act⟩, owed, taken⟩ := ready m later
        rw [back] at owed taken
        cases act with
        | executes op => exact owed.elim
        | flush cell value => simp [step, stuck, before, init] at taken
  · intro n
    obtain ⟨m, later, here⟩ := again (u, .executes .unlock) (by simp [contended]) n
    exact ⟨m, later, unlock_inside (Execution.takes here)⟩

theorem lock_starves_two :
    ∃ trace s, ∃ e : Execution (step (clients Bool Unit)) s,
      Reaches (step (clients Bool Unit)) unrestricted (init (start fun _ => 0) fun _ => .outside)
        trace s ∧
      e.Fair owes ∧ (∀ n, (e.state n).control true = .locking) ∧
      ∀ n, ∃ m, n ≤ m ∧ (e.state m).control false = .critical :=
  lock_starves (fun _ => 0) (by decide)

end Progress

end ConcurrencyCourse.TASSpinLock
