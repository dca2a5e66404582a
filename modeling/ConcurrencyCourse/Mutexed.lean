import ConcurrencyCourse.Interleaving

/-!
`Mutexed<T>` of tasks/intro/mutexed for any copyable `T`. A section takes a
`UniqueRef`, reads and modifies the object through it and drops it. `operator->`
gives the address of the guarded object; `operator*` returns it by value, so what is
done to its result is done to a copy.
-/

namespace ConcurrencyCourse.Mutexed

open Interleaving

inductive Accessor where
  | star
  | arrow
  deriving DecidableEq

/-- What a thread does with `Mutexed<T>`: `read` by the value that it sees, `write` by
the modification that is applied to the result of the accessor. -/
inductive Op (T : Type) where
  | lock
  | read (accessor : Accessor) (value : T)
  | write (accessor : Accessor) (modify : T → T)
  | drop

structure State (Thread T : Type) where
  object : T
  mutex : Option Thread

variable {Thread T : Type}

def init (object : T) : State Thread T := { object, mutex := none }

/-- `auto operator*() const` copies `guarded_`: the modified temporary is gone at the
end of the expression. -/
def Accessor.modified : Accessor → (T → T) → T → T
  | .star, _, object => object
  | .arrow, modify, object => modify object

structure Section (Thread T : Type) where
  thread : Thread
  writes : List (T → T)

def applied (object : T) : List (Section Thread T) → T
  | [] => object
  | newest :: earlier => newest.writes.foldl (fun value modify => modify value)
      (applied object earlier)

variable [DecidableEq Thread]

/-- Adds a modification to the thread's latest section; the newest section is the head. -/
def addTo (t : Thread) (modify : T → T) : List (Section Thread T) → List (Section Thread T)
  | [] => []
  | newest :: earlier =>
      if newest.thread = t then { newest with writes := newest.writes ++ [modify] } :: earlier
      else newest :: addTo t modify earlier

def record (sections : List (Section Thread T)) : Thread × Op T → List (Section Thread T)
  | (t, .lock) => { thread := t, writes := [] } :: sections
  | (t, .write _ modify) => addTo t modify sections
  | (_, .read _ _) => sections
  | (_, .drop) => sections

def sections : List (Thread × Op T) → List (Section Thread T) := List.foldl record []

theorem sections_snoc (trace : List (Thread × Op T)) (label : Thread × Op T) :
    sections (trace ++ [label]) = record (sections trace) label := by
  simp [sections]

variable [DecidableEq T]

def step (s : State Thread T) : Thread × Op T → Option (State Thread T)
  | (t, .lock) => guarded (s.mutex = none) { s with mutex := some t }
  | (t, .read _ value) => guarded (s.mutex = some t ∧ s.object = value) s
  | (t, .write accessor modify) => guarded (s.mutex = some t)
      { s with object := accessor.modified modify s.object }
  | (t, .drop) => guarded (s.mutex = some t) { s with mutex := none }

/-- A modification through `operator*` is made only where it changes nothing. -/
def InPlace (s : State Thread T) : Thread × Op T → Prop
  | (_, .write .star modify) => modify s.object = s.object
  | (_, .write .arrow _) => True
  | (_, .read _ _) => True
  | (_, .lock) => True
  | (_, .drop) => True

/-- The sections so far took effect one after another: the object is what they leave,
and every read saw what the sections and writes before it left. -/
structure Serial (object : T) (trace : List (Thread × Op T)) (s : State Thread T) : Prop where
  content : s.object = applied object (sections trace)
  reads : ∀ early late t accessor value, trace = early ++ (t, .read accessor value) :: late →
    value = applied object (sections early)

section Runs
variable {object : T} {s after : State Thread T} {trace : List (Thread × Op T)}
  {label : Thread × Op T}

def Latest (trace : List (Thread × Op T)) (s : State Thread T) : Prop :=
  ∀ t, s.mutex = some t → ∃ newest earlier, sections trace = newest :: earlier ∧ newest.thread = t

theorem latest_step (latest : Latest trace s) (taken : step s label = some after) :
    Latest (trace ++ [label]) after := by
  obtain ⟨t, op⟩ := label
  intro u owner
  rw [sections_snoc]
  cases op with
  | lock =>
      obtain ⟨-, rfl⟩ := guarded_eq_some.mp taken
      cases owner
      exact ⟨_, _, rfl, rfl⟩
  | read accessor value =>
      obtain ⟨-, rfl⟩ := guarded_eq_some.mp taken
      exact latest u owner
  | write accessor modify =>
      obtain ⟨mine, rfl⟩ := guarded_eq_some.mp taken
      obtain ⟨newest, earlier, same, thread⟩ := latest t mine
      have self : t = u := Option.some.inj (mine.symm.trans owner)
      exact ⟨{ newest with writes := newest.writes ++ [modify] }, earlier,
        by rw [record, same, addTo, if_pos thread], thread.trans self⟩
  | drop =>
      obtain ⟨-, rfl⟩ := guarded_eq_some.mp taken
      cases owner

theorem latest_reached {allowed : State Thread T → Thread × Op T → Prop}
    (reached : Reaches step allowed (init object) trace s) : Latest trace s := by
  induction reached with
  | start =>
      intro t owner
      cases owner
  | next label _ _ taken ih => exact latest_step ih taken

def Op.effect : Op T → T → T
  | .write _ modify, value => modify value
  | .lock, value => value
  | .read _ _, value => value
  | .drop, value => value

theorem applied_step (latest : Latest trace s) (taken : step s label = some after) :
    applied object (sections (trace ++ [label])) =
      label.2.effect (applied object (sections trace)) := by
  obtain ⟨t, op⟩ := label
  rw [sections_snoc]
  cases op with
  | lock => rfl
  | read accessor value => rfl
  | drop => rfl
  -- The write belongs to the newest section, which is that of the owner.
  | write accessor modify =>
      obtain ⟨mine, -⟩ := guarded_eq_some.mp taken
      obtain ⟨newest, earlier, same, thread⟩ := latest t mine
      simp [record, same, addTo, thread, applied, Op.effect]

theorem content_step (content : s.object = applied object (sections trace))
    (latest : Latest trace s) (inPlace : InPlace s label) (taken : step s label = some after) :
    after.object = applied object (sections (trace ++ [label])) := by
  rw [applied_step latest taken, ← content]
  obtain ⟨t, op⟩ := label
  cases op with
  | lock =>
      obtain ⟨-, rfl⟩ := guarded_eq_some.mp taken
      rfl
  | read accessor value =>
      obtain ⟨-, rfl⟩ := guarded_eq_some.mp taken
      rfl
  | drop =>
      obtain ⟨-, rfl⟩ := guarded_eq_some.mp taken
      rfl
  | write accessor modify =>
      obtain ⟨-, rfl⟩ := guarded_eq_some.mp taken
      cases accessor with
      | arrow => rfl
      -- `operator*` returns a copy: the object stays, and so must what is asked for.
      | star => exact inPlace.symm

theorem content_reached (reached : Reaches step InPlace (init object) trace s) :
    s.object = applied object (sections trace) := by
  induction reached with
  | start => rfl
  | next label reached inPlace taken ih =>
      exact content_step ih (latest_reached reached) inPlace taken

theorem serial_reached (reached : Reaches step InPlace (init object) trace s) :
    Serial object trace s := by
  constructor
  · exact content_reached reached
  · rintro early late t accessor value rfl
    obtain ⟨before, after, earlier, -, taken, -⟩ := reached.around
    rw [← content_reached earlier]
    exact (guarded_eq_some.mp taken).1.2.symm

theorem lost_write (reached : Reaches step InPlace (init object) trace s)
    (taken : step s label = some after) (copied : ¬ InPlace s label) :
    ¬ Serial object (trace ++ [label]) after := by
  intro serial
  -- If the run were serial after the step, the lost modification would have changed nothing.
  have content := serial.content
  rw [applied_step (latest_reached reached) taken, ← content_reached reached] at content
  obtain ⟨t, op⟩ := label
  cases op with
  | lock => exact copied trivial
  | read accessor value => exact copied trivial
  | drop => exact copied trivial
  | write accessor modify =>
      cases accessor with
      | arrow => exact copied trivial
      | star =>
          obtain ⟨-, rfl⟩ := guarded_eq_some.mp taken
          exact copied content.symm

/-- Sections take effect one after another, whichever accessor they read through,
exactly as long as no modification through `operator*` would change the object. -/
theorem sections_serial_iff (object : T) (trace : List (Thread × Op T)) (s : State Thread T) :
    Reaches step InPlace (init object) trace s ↔ Reaches step unrestricted (init object) trace s ∧
      ∀ early s', early <+: trace → Reaches step unrestricted (init object) early s' →
        Serial object early s' := by
  apply reaches_exactly_along
  · exact fun trace s reached => serial_reached reached
  · exact fun trace s label after reached taken copied => lost_write reached taken copied

end Runs

structure Counter where
  value : UInt64
  deriving DecidableEq

def Counter.increment (counter : Counter) : Counter := { value := counter.value + 1 }

/-- `(*ref).Increment()` in one section leaves the counter at 0. -/
theorem increment_through_star_lost : ∃ (trace : List (Bool × Op Counter)) (s : State Bool Counter),
    Reaches step unrestricted (init { value := 0 }) trace s ∧ s.mutex = none ∧
      s.object = { value := 0 } ∧ applied { value := 0 } (sections trace) = { value := 1 } ∧
      ¬ Serial { value := 0 } trace s := by
  have ran : run step (init { value := 0 } : State Bool Counter)
      [(false, .lock), (false, .write .star Counter.increment), (false, .drop)] = some _ := rfl
  refine ⟨_, _, run_free ran, rfl, rfl, rfl, fun serial => ?_⟩
  have content := serial.content
  revert content
  decide

end ConcurrencyCourse.Mutexed
