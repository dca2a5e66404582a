import ConcurrencyCourse.MonitorProgress

/-!
Threads that use several monitors of one class. The code of a thread calls an operation of
an object, or takes a step of its own on what the threads share. To that code an operation
of a monitor is a single step, taken where its waiting loop ends: what the threads do over
the monitors they can do over objects with such operations, where they are blocked over
the monitors they are blocked over the objects, and no run is longer than it is paid for.
-/

namespace ConcurrencyCourse.MonitorClients

open Interleaving Headcount Monitor

/-- The code of the threads: the call at a point, the point behind it once the call has
returned, and the steps at the points without a call. Such a step may look at the points of
the other threads and move them. -/
structure Code (Object Thread Call Result Point Shared Act : Type) where
  calls : Point → Option (Object × Call)
  behind : Point → Result → Point
  own : Thread → (Thread → Point) → Shared → Act → Option ((Thread → Point) × Shared)

variable {Object Thread Data Call Result Point Shared Act : Type}

def Code.Passed (code : Code Object Thread Call Result Point Shared Act)
    (point passed : Thread → Point) : Prop :=
  ∀ u, passed u = point u ∨
    code.calls (point u) ≠ none ∧ ∃ result, passed u = code.behind (point u) result

/-- The steps of the code itself do not care for calls under way: they do not move a thread
at a call, and do the same where it is behind the call already. -/
structure Code.Lawful (code : Code Object Thread Call Result Point Shared Act) : Prop where
  stays : ∀ t point shared act next shared', code.calls (point t) = none →
    code.own t point shared act = some (next, shared') →
    ∀ u, code.calls (point u) ≠ none → next u = point u
  passes : ∀ t point shared act next shared' passed, code.calls (point t) = none →
    code.own t point shared act = some (next, shared') → code.Passed point passed →
    ∃ next', code.own t passed shared act = some (next', shared') ∧
      ∀ u, (code.calls (point u) = none → next' u = next u) ∧
        (code.calls (point u) ≠ none → next' u = passed u)

theorem Code.Passed.free {code : Code Object Thread Call Result Point Shared Act}
    {point passed : Thread → Point} {u : Thread} (passes : code.Passed point passed)
    (free : code.calls (point u) = none) : passed u = point u := by
  rcases passes u with same | ⟨busy, _⟩
  · exact same
  · exact absurd free busy

section Moves
variable [DecidableEq Thread] {code : Code Object Thread Call Result Point Shared Act}
  {point passed : Thread → Point} {t : Thread}

theorem Code.Passed.update (passes : code.Passed point passed)
    (free : code.calls (point t) = none) (next : Point) (u : Thread) :
    (code.calls (point u) = none →
      Function.update passed t next u = Function.update point t next u) ∧
    (code.calls (point u) ≠ none → Function.update passed t next u = passed u) := by
  by_cases self : u = t
  · subst self
    exact ⟨fun _ => by simp, fun busy => absurd free busy⟩
  · exact ⟨fun idle => by simp [self, passes.free idle], fun _ => by simp [self]⟩

def Code.alone (calls : Point → Option (Object × Call)) (behind : Point → Result → Point)
    (own : Point → Shared → Act → Option (Point × Shared)) :
    Code Object Thread Call Result Point Shared Act :=
  { calls := calls, behind := behind
    own := fun t point shared act => (own (point t) shared act).map fun after =>
      (Function.update point t after.1, after.2) }

section Alone
variable {calls : Point → Option (Object × Call)} {behind : Point → Result → Point}
  {own : Point → Shared → Act → Option (Point × Shared)} {next : Thread → Point}
  {shared shared' : Shared} {act : Act}

theorem Code.alone_own :
    (Code.alone calls behind own).own t point shared act = some (next, shared') ↔
      ∃ here, own (point t) shared act = some (here, shared') ∧
        Function.update point t here = next := by
  simp [Code.alone, Option.map_eq_some_iff, Prod.exists]

theorem Code.alone_lawful :
    (Code.alone calls behind own : Code Object Thread Call Result Point Shared Act).Lawful where
  stays t point shared act next shared' free acts u busy := by
    obtain ⟨here, _, rfl⟩ := Code.alone_own.mp acts
    refine Function.update_of_ne ?_ _ _
    rintro rfl
    exact busy free
  passes t point shared act next shared' passed free acts passes := by
    obtain ⟨here, moved, rfl⟩ := Code.alone_own.mp acts
    refine ⟨_, Code.alone_own.mpr ⟨here, ?_, rfl⟩, passes.update free here⟩
    rwa [passes.free free]

end Alone
end Moves

/-! Threads over objects whose operations are single steps. -/

inductive AtomicOp (Data Point Act : Type) where
  | own (act : Act)
  | call (point : Point) (found : Data)

structure AtomicState (Object Thread Data Point Shared : Type) where
  shared : Shared
  data : Object → Data
  point : Thread → Point

def atomicInit (shared : Shared) (data : Object → Data) (start : Thread → Point) :
    AtomicState Object Thread Data Point Shared :=
  { shared := shared, data := data, point := start }

section Atomic
variable [DecidableEq Object] [DecidableEq Thread] [DecidableEq Data] [DecidableEq Point]

def atomicStep (code : Code Object Thread Call Result Point Shared Act)
    (ops : Operations Data Call Result) (s : AtomicState Object Thread Data Point Shared) :
    Thread × AtomicOp Data Point Act → Option (AtomicState Object Thread Data Point Shared)
  | (t, .own act) => match code.calls (s.point t) with
      | some _ => none
      | none => (code.own t s.point s.shared act).map fun after =>
          { s with
            shared := after.2
            point := after.1 }
  | (t, .call point found) => match code.calls point with
      | none => none
      | some (object, call) =>
          guarded (s.point t = point ∧ s.data object = found ∧ ops.waits call found = false)
            { s with
              data := Function.update s.data object (ops.body call found).data
              point := Function.update s.point t
                (code.behind point (ops.body call found).result) }

variable {code : Code Object Thread Call Result Point Shared Act}
  {ops : Operations Data Call Result}
  {a next : AtomicState Object Thread Data Point Shared} {t : Thread} {act : Act} {point : Point}

theorem own_atomic : atomicStep code ops a (t, .own act) = some next ↔
    code.calls (a.point t) = none ∧
      ∃ point shared, code.own t a.point a.shared act = some (point, shared) ∧
        { a with
          shared := shared
          point := point } = next := by
  cases here : code.calls (a.point t) <;>
    simp [atomicStep, here, Option.map_eq_some_iff, Prod.exists]

theorem call_atomic {found : Data} : atomicStep code ops a (t, .call point found) = some next ↔
    a.point t = point ∧ ∃ object call, code.calls point = some (object, call) ∧
      a.data object = found ∧ ops.waits call found = false ∧
      { a with
        data := Function.update a.data object (ops.body call found).data
        point := Function.update a.point t
          (code.behind point (ops.body call found).result) } = next := by
  cases here : code.calls point with
  | none => simp [atomicStep, here]
  | some made =>
      obtain ⟨object, call⟩ := made
      simp [atomicStep, here, and_assoc]

end Atomic

/-! Threads over monitors. -/

/-- A step inside a monitor records the point of the code whose call it belongs to. -/
inductive Op (Thread Data Call Result Point Act : Type) where
  | own (act : Act)
  | within (point : Point) (op : Monitor.Op Thread Data Call Result)

structure State (Object Thread Data Call Result Point Shared : Type) where
  shared : Shared
  monitor : Object → Monitor.State Thread Data Call Result
  point : Thread → Point

def init (shared : Shared) (data : Object → Data) (start : Thread → Point) :
    State Object Thread Data Call Result Point Shared :=
  { shared := shared, monitor := fun object => Monitor.init (data object), point := start }

def begins [DecidableEq Call] (call : Call) : Monitor.Op Thread Data Call Result → Bool
  | .invoke own => own = call
  | _ => true

def Code.next (code : Code Object Thread Call Result Point Shared Act) (point : Point) :
    Monitor.Op Thread Data Call Result → Point
  | .unlock result => code.behind point result
  | _ => point

def Code.arrived (code : Code Object Thread Call Result Point Shared Act) (point : Point) :
    Monitor.Pc Call Result → Point
  | .notifying result _ | .leaving result => code.behind point result
  | _ => point

def State.standing (code : Code Object Thread Call Result Point Shared Act)
    (s : State Object Thread Data Call Result Point Shared) (t : Thread) : Point :=
  match code.calls (s.point t) with
  | none => s.point t
  | some (object, _) => code.arrived (s.point t) ((s.monitor object).pc t)

def State.abstract (code : Code Object Thread Call Result Point Shared Act)
    (s : State Object Thread Data Call Result Point Shared) :
    AtomicState Object Thread Data Point Shared :=
  { shared := s.shared, data := fun object => (s.monitor object).data, point := s.standing code }

def shown : Thread × Op Thread Data Call Result Point Act →
    Option (Thread × AtomicOp Data Point Act)
  | (t, .own act) => some (t, .own act)
  | (t, .within point (.act _ found)) => some (t, .call point found)
  | _ => none

/-- A step other than a spurious wake-up and other than one that starts something new. -/
def Op.goesOn (starts : Act → Bool) : Op Thread Data Call Result Point Act → Bool
  | .own act => !starts act
  | .within _ (.spurious _) => false
  | .within _ _ => true

def AtomicOp.goesOn (starts : Act → Bool) : AtomicOp Data Point Act → Bool
  | .own act => !starts act
  | .call _ _ => true

section Step
variable [DecidableEq Object] [DecidableEq Thread] [Fintype Thread] [DecidableEq Data]
  [DecidableEq Call] [DecidableEq Result] [DecidableEq Point]

def step (code : Code Object Thread Call Result Point Shared Act)
    (ops : Operations Data Call Result) (s : State Object Thread Data Call Result Point Shared) :
    Thread × Op Thread Data Call Result Point Act →
      Option (State Object Thread Data Call Result Point Shared)
  | (t, .own act) => match code.calls (s.point t) with
      | some _ => none
      | none => (code.own t s.point s.shared act).map fun after =>
          { s with
            shared := after.2
            point := after.1 }
  | (t, .within point op) => match code.calls point with
      | none => none
      | some (object, call) =>
          if s.point t = point ∧ begins call op = true then
            (Monitor.step ops (s.monitor object) (t, op)).map fun after =>
              { s with
                monitor := Function.update s.monitor object after
                point := Function.update s.point t (code.next point op) }
          else none

def Idle (code : Code Object Thread Call Result Point Shared Act)
    (ops : Operations Data Call Result) (starts : Act → Bool)
    (s : State Object Thread Data Call Result Point Shared) : Prop :=
  ∀ t op, op.goesOn starts = true → step code ops s (t, op) = none

end Step

section Taken
variable [DecidableEq Object] [DecidableEq Thread] [Fintype Thread] [DecidableEq Data]
  [DecidableEq Call] [DecidableEq Result] [DecidableEq Point]
  {code : Code Object Thread Call Result Point Shared Act}
  {ops : Operations Data Call Result}
  {s after : State Object Thread Data Call Result Point Shared}
  {t u : Thread} {act : Act} {point : Point} {op : Monitor.Op Thread Data Call Result}

theorem own_taken : step code ops s (t, .own act) = some after ↔
    code.calls (s.point t) = none ∧
      ∃ next shared, code.own t s.point s.shared act = some (next, shared) ∧
        { s with
          shared := shared
          point := next } = after := by
  cases here : code.calls (s.point t) <;>
    simp [step, here, Option.map_eq_some_iff, Prod.exists]

theorem within_taken : step code ops s (t, .within point op) = some after ↔
    s.point t = point ∧ ∃ object call, code.calls point = some (object, call) ∧
      begins call op = true ∧
      ∃ next, Monitor.step ops (s.monitor object) (t, op) = some next ∧
        { s with
          monitor := Function.update s.monitor object next
          point := Function.update s.point t (code.next point op) } = after := by
  cases here : code.calls point with
  | none => simp [step, here]
  | some made =>
      obtain ⟨object, call⟩ := made
      by_cases able : s.point t = point ∧ begins call op = true
      · simp [step, here, able, Option.map_eq_some_iff]
      · simp only [step, here, if_neg able, reduceCtorEq, false_iff]
        rintro ⟨at', _, _, same, begun, -⟩
        cases same
        exact able ⟨at', begun⟩

end Taken

/-! Where a thread stands in the monitors. -/

/-- The thread is inside the monitor with this call, as far as its point there tells. -/
def serves (call : Call) : Monitor.Pc Call Result → Prop
  | .outside => False
  | .entering own | .testing own | .parked own | .woken own _ | .acting own => own = call
  | .notifying _ _ | .leaving _ => True

theorem serves_afterBody (call : Call) (outcome : Outcome Data Result) :
    serves call (afterBody outcome : Monitor.Pc Call Result) := by
  cases signal : outcome.notify <;> simp [afterBody, signal, serves]

theorem serves_inside {call : Call} {pc : Monitor.Pc Call Result} (serving : serves call pc) :
    pc ≠ .outside := by
  rintro rfl
  exact serving

theorem next_point {code : Code Object Thread Call Result Point Shared Act} {point : Point}
    {op : Monitor.Op Thread Data Call Result} (stays : ∀ result, op ≠ .unlock result) :
    code.next point op = point := by
  cases op with
  | unlock result => exact absurd rfl (stays result)
  | _ => rfl

def Placed (code : Code Object Thread Call Result Point Shared Act)
    (s : State Object Thread Data Call Result Point Shared) : Prop :=
  ∀ object t, (s.monitor object).pc t = .outside ∨
    ∃ call, code.calls (s.point t) = some (object, call) ∧ serves call ((s.monitor object).pc t)

section Placement
variable {code : Code Object Thread Call Result Point Shared Act}
  {s : State Object Thread Data Call Result Point Shared} {object other : Object} {t : Thread}
  {call : Call}

theorem Placed.outside (placed : Placed code s)
    (away : ∀ call, code.calls (s.point t) ≠ some (object, call)) :
    (s.monitor object).pc t = .outside := by
  rcases placed object t with outside | ⟨call, here, _⟩
  · exact outside
  · exact absurd here (away call)

theorem Placed.elsewhere (placed : Placed code s)
    (here : code.calls (s.point t) = some (object, call)) (apart : other ≠ object) :
    (s.monitor other).pc t = .outside := by
  refine placed.outside fun call there => ?_
  cases here.symm.trans there
  exact apart rfl

theorem Placed.nowhere (placed : Placed code s)
    (here : code.calls (s.point t) = some (object, call))
    (outside : (s.monitor object).pc t = .outside) (other : Object) :
    (s.monitor other).pc t = .outside := by
  by_cases same : other = object
  · rw [same, outside]
  · exact placed.elsewhere here same

theorem Placed.serves (placed : Placed code s)
    (here : code.calls (s.point t) = some (object, call))
    (inside : (s.monitor object).pc t ≠ .outside) :
    MonitorClients.serves call ((s.monitor object).pc t) := by
  rcases placed object t with outside | ⟨own, there, serves⟩
  · exact absurd outside inside
  · cases here.symm.trans there
    exact serves

variable [DecidableEq Object] [DecidableEq Thread] [Fintype Thread] [DecidableEq Data]
  [DecidableEq Call] [DecidableEq Result] [DecidableEq Point]
  {ops : Operations Data Call Result} {after : State Object Thread Data Call Result Point Shared}
  {m m' : Monitor.State Thread Data Call Result} {op : Monitor.Op Thread Data Call Result}

theorem serves_kept (taken : Monitor.step ops m (t, op) = some m') (begun : begins call op = true)
    (serving : m.pc t = .outside ∨ serves call (m.pc t)) :
    (∃ result, op = .unlock result) ∧ m'.pc t = .outside ∨
      (∀ result, op ≠ .unlock result) ∧ serves call (m'.pc t) := by
  obtain ⟨source, target⟩ := own_step taken
  rw [source] at serving
  rw [target]
  cases op with
  | unlock result => exact .inl ⟨⟨result, rfl⟩, rfl⟩
  | invoke own =>
      have same : own = call := of_decide_eq_true begun
      exact .inr ⟨fun _ => nofun, same⟩
  | act own found => exact .inr ⟨fun _ => nofun, serves_afterBody call _⟩
  | _ =>
      refine .inr ⟨fun _ => nofun, ?_⟩
      rcases serving with outside | serves
      · cases outside
      · exact serves

omit [DecidableEq Object] [DecidableEq Point] in
theorem Placed.goes (placed : Placed code s)
    (here : code.calls (s.point t) = some (object, call))
    (taken : Monitor.step ops (s.monitor object) (t, op) = some m)
    (begun : begins call op = true) :
    (∃ result, op = .unlock result) ∧ m.pc t = .outside ∨
      (∀ result, op ≠ .unlock result) ∧ MonitorClients.serves call (m.pc t) := by
  refine serves_kept taken begun ?_
  by_cases outside : (s.monitor object).pc t = .outside
  · exact .inl outside
  · exact .inr (placed.serves here outside)

theorem Placed.kept {label : Thread × Op Thread Data Call Result Point Act} (lawful : code.Lawful)
    (placed : Placed code s) (taken : step code ops s label = some after) :
    Placed code after := by
  intro object u
  obtain ⟨t, op⟩ := label
  cases op with
  | own act =>
      obtain ⟨free, next, shared, acts, rfl⟩ := own_taken.mp taken
      rcases placed object u with outside | ⟨call, here, serves⟩
      · exact .inl outside
      · have same := lawful.stays _ _ _ _ _ _ free acts u (by rw [here]; nofun)
        exact .inr ⟨call, (congrArg code.calls same).trans here, serves⟩
  | within point op =>
      obtain ⟨rfl, own, call, here, begun, m, moved, rfl⟩ := within_taken.mp taken
      by_cases mine : object = own
      · subst mine
        by_cases self : u = t
        · subst self
          rcases placed.goes here moved begun with ⟨_, outside⟩ | ⟨stays, serves⟩
          · exact .inl (by simpa using outside)
          · exact .inr ⟨call, by simpa [next_point stays] using here, by simpa using serves⟩
        · simp only [Function.update_self, Function.update_of_ne self]
          rcases other_step self moved with same | ⟨own, asleep, awake⟩
          · simpa [same] using placed object u
          · rcases placed object u with outside | ⟨_, there, serves⟩
            · cases asleep.symm.trans outside
            · rw [asleep] at serves
              exact .inr ⟨_, there, by rw [awake]; exact serves⟩
      · simp only [Function.update_of_ne mine]
        by_cases self : u = t
        · subst self
          exact .inl (placed.elsewhere here mine)
        · simpa [self] using placed object u

def seen (code : Code Object Thread Call Result Point Shared Act) (object : Object) :
    Thread × Op Thread Data Call Result Point Act → Option (Monitor.Label Thread Data Call Result)
  | (_, .own _) => none
  | (t, .within point op) => match code.calls point with
      | none => none
      | some (other, _) => if other = object then some (t, op) else none

variable {allowed : State Object Thread Data Call Result Point Shared →
    Thread × Op Thread Data Call Result Point Act → Prop}
  {shared : Shared} {data : Object → Data} {start : Thread → Point}
  {trace : List (Thread × Op Thread Data Call Result Point Act)}

theorem reaches_placed (lawful : code.Lawful)
    (reached : Reaches (step code ops) allowed (init shared data start) trace s) :
    Placed code s :=
  reached.invariant (fun _ _ => .inl rfl) fun _ _ _ placed _ taken => placed.kept lawful taken

theorem reaches_monitor
    (reached : Reaches (step code ops) allowed (init shared data start) trace s)
    (object : Object) :
    Reaches (Monitor.step ops) unrestricted (Monitor.init (data object))
      (trace.filterMap (seen code object)) (s.monitor object) := by
  obtain ⟨m, run, rfl⟩ := reached.simulates (seen code object)
    (fun s m => s.monitor object = m) rfl fun s label after m same _ taken => by
      subst same
      obtain ⟨t, op⟩ := label
      cases op with
      | own act =>
          obtain ⟨_, _, _, _, rfl⟩ := own_taken.mp taken
          exact .inl ⟨rfl, rfl⟩
      | within point op =>
          obtain ⟨rfl, own, call, here, _, m, moved, rfl⟩ := within_taken.mp taken
          by_cases mine : own = object
          · subst mine
            exact .inr ⟨(t, op), m, by simp [seen, here], moved, by simp⟩
          · exact .inl ⟨by simp [seen, here, mine], by simp [Function.update_of_ne (Ne.symm mine)]⟩
  exact run

end Placement

/-! The objects behind the monitors. -/

section Refinement
variable {code : Code Object Thread Call Result Point Shared Act}
  {s : State Object Thread Data Call Result Point Shared} {object : Object} {t u : Thread}
  {call : Call}

theorem standing_call (here : code.calls (s.point t) = some (object, call)) :
    s.standing code t = code.arrived (s.point t) ((s.monitor object).pc t) := by
  simp only [State.standing, here]

theorem standing_free (free : code.calls (s.point t) = none) : s.standing code t = s.point t := by
  simp only [State.standing, free]

theorem standing_outside (outside : ∀ object, (s.monitor object).pc t = .outside) :
    s.standing code t = s.point t := by
  cases here : code.calls (s.point t) with
  | none => exact standing_free here
  | some made =>
      obtain ⟨object, call⟩ := made
      rw [standing_call here, outside]
      rfl

theorem standing_passed (code : Code Object Thread Call Result Point Shared Act)
    (s : State Object Thread Data Call Result Point Shared) :
    code.Passed s.point (s.standing code) := by
  intro u
  cases here : code.calls (s.point u) with
  | none => exact .inl (standing_free here)
  | some made =>
      obtain ⟨object, call⟩ := made
      rw [standing_call here]
      cases (s.monitor object).pc u with
      | notifying result _ | leaving result => exact .inr ⟨nofun, result, rfl⟩
      | _ => exact .inl rfl

theorem Placed.free (placed : Placed code s) (free : code.calls (s.point t) = none)
    (object : Object) : (s.monitor object).pc t = .outside :=
  placed.outside fun call here => by cases free.symm.trans here

theorem arrived_afterBody (point : Point) (outcome : Outcome Data Result) :
    code.arrived point (afterBody outcome) = code.behind point outcome.result := by
  cases signal : outcome.notify <;> simp [afterBody, signal, Code.arrived]

variable [DecidableEq Object] [DecidableEq Thread] [Fintype Thread] [DecidableEq Data]
  [DecidableEq Call] [DecidableEq Result] [DecidableEq Point]
  {ops : Operations Data Call Result} {after : State Object Thread Data Call Result Point Shared}
  {point : Point} {op : Monitor.Op Thread Data Call Result} {act : Act}

theorem standing_other (taken : step code ops s (t, .within point op) = some after)
    (other : u ≠ t) : after.standing code u = s.standing code u := by
  obtain ⟨rfl, object, call, here, _, m, moved, rfl⟩ := within_taken.mp taken
  simp only [State.standing, Function.update_of_ne other]
  cases there : code.calls (s.point u) with
  | none => rfl
  | some made =>
      obtain ⟨own, call'⟩ := made
      by_cases same : own = object
      · subst same
        simp only [Function.update_self]
        rcases other_step other moved with still | ⟨_, asleep, awake⟩
        · rw [still]
        · rw [asleep, awake]
          rfl
      · simp only [Function.update_of_ne same]

theorem standing_own (placed : Placed code s)
    (taken : step code ops s (t, .within point op) = some after) :
    (∃ call found, op = .act call found ∧ s.standing code t = point ∧
      after.standing code t = code.behind point (ops.body call found).result) ∨
    (∀ call found, op ≠ .act call found) ∧ after.standing code t = s.standing code t := by
  obtain ⟨rfl, object, call, here, _, m, moved, rfl⟩ := within_taken.mp taken
  obtain ⟨source, target⟩ := own_step moved
  rw [standing_call here, source]
  cases op with
  | unlock result =>
      refine .inr ⟨by simp, ?_⟩
      rw [standing_outside]
      · simp [Code.next, Code.arrived, Monitor.Op.source]
      · intro other
        by_cases same : other = object
        · subst same
          simpa [Monitor.Op.target] using target
        · simpa [same] using placed.elsewhere here same
  | act own found =>
      refine .inl ⟨own, found, rfl, rfl, ?_⟩
      rw [standing_call (by simpa [Code.next] using here)]
      simp [Code.next, target, Monitor.Op.target, arrived_afterBody]
  | _ =>
      refine .inr ⟨by simp, ?_⟩
      rw [standing_call (by simpa [Code.next] using here)]
      simp [Code.next, target, Monitor.Op.target, Monitor.Op.source, Code.arrived]

end Refinement

/-- What the code from a point on costs: each call at least what it is charged with in its
monitor, each step of its own one, and where a step leads to more, a fee on the step. -/
structure Priced (code : Code Object Thread Call Result Point Shared Act) (wakes : Call → ℕ)
    (price : Point → ℕ) (fee : Act → ℕ) : Prop where
  call : ∀ point object call result, code.calls point = some (object, call) →
    price (code.behind point result) + (7 + 2 * wakes call) ≤ price point
  own : ∀ t point shared act next shared', code.own t point shared act = some (next, shared') →
    price (next t) + 1 ≤ price (point t) + fee act ∧ ∀ u, u ≠ t → price (next u) ≤ price (point u)

section Squares
variable [DecidableEq Object] [DecidableEq Thread] [Fintype Thread] [DecidableEq Data]
  [DecidableEq Call] [DecidableEq Result] [DecidableEq Point]
  {code : Code Object Thread Call Result Point Shared Act} {ops : Operations Data Call Result}
  {s after : State Object Thread Data Call Result Point Shared} {t : Thread} {point : Point}
  {op : Monitor.Op Thread Data Call Result} {act : Act}

theorem own_square (lawful : code.Lawful) (placed : Placed code s)
    (taken : step code ops s (t, .own act) = some after) :
    atomicStep code ops (s.abstract code) (t, .own act) = some (after.abstract code) := by
  obtain ⟨free, next, shared, acts, rfl⟩ := own_taken.mp taken
  have passed := standing_passed code s
  obtain ⟨next', acts', ends⟩ := lawful.passes _ _ _ _ _ _ _ free acts passed
  refine own_atomic.mpr ⟨(congrArg code.calls (passed.free free)).trans free, next', shared,
    acts', ?_⟩
  have stands : next' = State.standing code
      { s with
        shared := shared
        point := next } := by
    funext u
    by_cases idle : code.calls (s.point u) = none
    · have home : State.standing code
          { s with
            shared := shared
            point := next } u = next u := standing_outside (placed.free idle)
      rw [(ends u).1 idle, home]
    · obtain ⟨⟨object, call⟩, here⟩ := Option.ne_none_iff_exists'.mp idle
      have same := lawful.stays _ _ _ _ _ _ free acts u idle
      have there : State.standing code
          { s with
            shared := shared
            point := next } u = code.arrived (next u) ((s.monitor object).pc u) :=
        standing_call ((congrArg code.calls same).trans here)
      rw [(ends u).2 idle, standing_call here, there, same]
  rw [stands]
  rfl

theorem within_square (placed : Placed code s) (sound : ∀ object, Sound ops (s.monitor object))
    (taken : step code ops s (t, .within point op) = some after) :
    (shown (t, (.within point op : Op Thread Data Call Result Point Act)) = none ∧
        after.abstract code = s.abstract code) ∨
      ∃ found, shown (t, (.within point op : Op Thread Data Call Result Point Act)) =
          some (t, .call point found) ∧
        atomicStep code ops (s.abstract code) (t, .call point found) =
          some (after.abstract code) := by
  have others (u : Thread) (other : u ≠ t) := standing_other taken other
  have own := standing_own placed taken
  obtain ⟨rfl, object, call, here, _, m, moved, rfl⟩ := within_taken.mp taken
  rcases own with ⟨made, found, rfl, before, now⟩ | ⟨idle, same⟩
  · obtain ⟨⟨acting, rfl⟩, rfl⟩ := guarded_eq_some.mp moved
    have serves := placed.serves here (by rw [acting]; nofun)
    rw [acting] at serves
    cases serves
    have ready := (sound object).ready t call acting
    refine .inr ⟨_, rfl, call_atomic.mpr ⟨before, object, call, here, rfl, ready, ?_⟩⟩
    have stands : Function.update (s.standing code) t
        (code.behind (s.point t) (ops.body call (s.monitor object).data).result) = _ :=
      Function.update_eq_iff.mpr ⟨now.symm, fun u other => (others u other).symm⟩
    simp only [State.abstract, stands]
    congr 1
    funext other
    by_cases same : other = object
    · subst same
      simp
    · simp [same]
  · have stands : State.standing code _ = s.standing code := funext fun u =>
      if self : u = t then self ▸ same else others u self
    refine .inl ⟨?_, ?_⟩
    · cases op with
      | act made found => exact absurd rfl (idle made found)
      | _ => rfl
    · simp only [State.abstract, stands]
      congr 1
      funext other
      by_cases same : other = object
      · subst same
        simpa using data_still moved idle
      · simp [same]

variable {allowed : State Object Thread Data Call Result Point Shared →
    Thread × Op Thread Data Call Result Point Act → Prop}
  {shared : Shared} {data : Object → Data} {start : Thread → Point}
  {trace : List (Thread × Op Thread Data Call Result Point Act)}

/-- The threads over the monitors do what they can do over the objects. -/
theorem reaches_atomic (lawful : code.Lawful)
    (reached : Reaches (step code ops) allowed (init shared data start) trace s) :
    Reaches (atomicStep code ops) unrestricted (atomicInit shared data start)
      (trace.filterMap shown) (s.abstract code) := by
  induction reached with
  | start =>
      have stands : State.standing code
          (init shared data start : State Object Thread Data Call Result Point Shared) = start :=
        funext fun t => standing_outside fun _ => rfl
      simp only [State.abstract, stands]
      exact .start
  | next label reached _ taken ih =>
      have placed := reaches_placed lawful reached
      have sound (object : Object) := sound (reaches_monitor reached object)
      obtain ⟨t, op⟩ := label
      rw [filterMap_snoc]
      cases op with
      | own act => exact ih.next (t, .own act) trivial (own_square lawful placed taken)
      | within point op =>
          rcases within_square placed sound taken with ⟨hidden, same⟩ | ⟨found, visible, moved⟩
          · simpa [hidden, same] using ih
          · simpa [visible] using ih.next _ trivial moved

end Squares

/-! Where nobody can go on. -/

section Blocking
variable [DecidableEq Object] [DecidableEq Thread] [Fintype Thread] [DecidableEq Data]
  [DecidableEq Call] [DecidableEq Result] [DecidableEq Point]

variable {code : Code Object Thread Call Result Point Shared Act}
  {ops : Operations Data Call Result}
  {starts : Act → Bool} {s : State Object Thread Data Call Result Point Shared}
  {object : Object} {t : Thread} {call : Call}

theorem Idle.unable {after : State Object Thread Data Call Result Point Shared}
    (idle : Idle code ops starts s) (op : Op Thread Data Call Result Point Act)
    (goesOn : op.goesOn starts = true) (able : step code ops s (t, op) = some after) : False := by
  cases able.symm.trans (idle t op goesOn)

theorem Idle.monitor (idle : Idle code ops starts s) (placed : Placed code s) (object : Object) :
    Monitor.Idle ops (s.monitor object) := by
  intro t op goesOn
  cases moved : Monitor.step ops (s.monitor object) (t, op) with
  | none => rfl
  | some next =>
      have source := (own_step moved).1
      have inside : (s.monitor object).pc t ≠ .outside := by
        rw [source]
        cases op with
        | invoke call => cases goesOn
        | _ => nofun
      rcases placed object t with outside | ⟨call, here, _⟩
      · exact absurd outside inside
      · cases op with
        | invoke own => cases goesOn
        | spurious own => cases goesOn
        | _ =>
            exact (idle.unable (.within (s.point t) _) rfl (within_taken.mpr
              ⟨rfl, object, call, here, rfl, next, moved, rfl⟩)).elim

theorem Idle.parked (idle : Idle code ops starts s) (placed : Placed code s)
    (sound : ∀ object, Sound ops (s.monitor object))
    (here : code.calls (s.point t) = some (object, call)) :
    (s.monitor object).pc t = .parked call := by
  rcases (idle.monitor placed object).threads (sound object) t with outside | ⟨own, parked⟩
  · have moved : Monitor.step ops (s.monitor object) (t, .invoke call) = some _ :=
      guarded_eq_some.mpr ⟨outside, rfl⟩
    refine (idle.unable (.within (s.point t) (.invoke call)) rfl (within_taken.mpr
      ⟨rfl, object, call, here, ?_, _, moved, rfl⟩)).elim
    simp [begins]
  · have serves := placed.serves here (by rw [parked]; nofun)
    rw [parked] at serves
    cases serves
    exact parked

theorem idle_of_threads
    (threads : ∀ t,
      (code.calls (s.point t) = none ∧
        ∀ act, starts act = false → code.own t s.point s.shared act = none) ∨
      ∃ object call, code.calls (s.point t) = some (object, call) ∧
        (s.monitor object).pc t = .parked call) :
    Idle code ops starts s := by
  intro t op goesOn
  cases taken : step code ops s (t, op) with
  | none => rfl
  | some after =>
      cases op with
      | own act =>
          obtain ⟨free, _, _, acts, _⟩ := own_taken.mp taken
          rcases threads t with ⟨_, rest⟩ | ⟨object, call, here, _⟩
          · cases acts.symm.trans (rest act (Bool.not_eq_true' _ ▸ goesOn))
          · cases free.symm.trans here
      | within point op =>
          obtain ⟨rfl, object, call, here, _, m, moved, _⟩ := within_taken.mp taken
          rcases threads t with ⟨free, _⟩ | ⟨own, _, there, parked⟩
          · cases free.symm.trans here
          · cases here.symm.trans there
            have source := (own_step moved).1
            rw [parked] at source
            cases op with
            | spurious call => cases goesOn
            | _ => cases source

variable {allowed : State Object Thread Data Call Result Point Shared →
    Thread × Op Thread Data Call Result Point Act → Prop}
  {shared : Shared} {data : Object → Data} {start : Thread → Point}
  {trace : List (Thread × Op Thread Data Call Result Point Act)}

theorem idle_blocked (lawful : code.Lawful)
    (attentive : ∀ object, Attentive Thread ops (data object))
    (reached : Reaches (step code ops) allowed (init shared data start) trace s)
    (idle : Idle code ops starts s) (t : Thread) (op : AtomicOp Data Point Act)
    (goesOn : op.goesOn starts = true) :
    atomicStep code ops (s.abstract code) (t, op) = none := by
  have placed := reaches_placed lawful reached
  have run (object : Object) := reaches_monitor reached object
  have sound (object : Object) := sound (run object)
  -- A call under way is parked, so it has not taken effect.
  have stands : s.standing code = s.point := by
    funext u
    cases here : code.calls (s.point u) with
    | none => exact standing_outside (placed.free here)
    | some made =>
        rw [standing_call here, idle.parked placed sound here]
        rfl
  cases taken : atomicStep code ops (s.abstract code) (t, op) with
  | none => rfl
  | some next =>
      exfalso
      cases op with
      | own act =>
          obtain ⟨free, _, _, acts, _⟩ := own_atomic.mp taken
          simp only [State.abstract, stands] at free acts
          exact idle.unable (.own act) goesOn (own_taken.mpr ⟨free, _, _, acts, rfl⟩)
      | call point found =>
          obtain ⟨at', object, call, here, data, ready, _⟩ := call_atomic.mp taken
          simp only [State.abstract, stands] at at' data
          subst at' data
          have waits := attentive object _ _ t call (run object) (idle.monitor placed object)
            (idle.parked placed sound here)
          cases ready.symm.trans waits

end Blocking

/-! How many steps the threads take. -/

def isSpurious : Thread × Op Thread Data Call Result Point Act → Bool
  | (_, .within _ (.spurious _)) => true
  | _ => false

def spurious (trace : List (Thread × Op Thread Data Call Result Point Act)) : ℕ :=
  trace.countP isSpurious

def fees (fee : Act → ℕ) : Thread × Op Thread Data Call Result Point Act → ℕ
  | (_, .own act) => fee act
  | (_, .within _ (.spurious _)) => 3
  | _ => 0

def Code.left (code : Code Object Thread Call Result Point Shared Act) (threads : ℕ)
    (wakes : Call → ℕ) (price : Point → ℕ) (point : Point)
    (pc : Object → Monitor.Pc Call Result) : ℕ :=
  match code.calls point with
  | none => price point
  | some (object, call) => match pc object with
      | .outside => price point
      | inside => price point - (7 + 2 * wakes call) + inside.left threads wakes

section Bound
variable {code : Code Object Thread Call Result Point Shared Act} {threads : ℕ} {wakes : Call → ℕ}
  {price : Point → ℕ} {fee : Act → ℕ} {point : Point} {object : Object} {call : Call}
  {pc : Object → Monitor.Pc Call Result}

theorem left_outside (outside : ∀ object, pc object = .outside) :
    code.left threads wakes price point pc = price point := by
  cases here : code.calls point with
  | none => simp only [Code.left, here]
  | some made => simp only [Code.left, here, outside]

theorem left_inside (pc : Object → Monitor.Pc Call Result)
    (here : code.calls point = some (object, call)) (inside : pc object ≠ .outside) :
    code.left threads wakes price point pc =
      price point - (7 + 2 * wakes call) + (pc object).left threads wakes := by
  simp only [Code.left, here]

end Bound

section Payment
variable [DecidableEq Object] [DecidableEq Thread] [Fintype Thread] [DecidableEq Data]
  [DecidableEq Call] [DecidableEq Result] [DecidableEq Point]
  {code : Code Object Thread Call Result Point Shared Act} {ops : Operations Data Call Result}
  {wakes : Call → ℕ} {price : Point → ℕ} {fee : Act → ℕ}
  {s after : State Object Thread Data Call Result Point Shared} {t u : Thread} {point : Point}
  {op : Monitor.Op Thread Data Call Result} {act : Act}

def State.left (code : Code Object Thread Call Result Point Shared Act) (wakes : Call → ℕ)
    (price : Point → ℕ) (s : State Object Thread Data Call Result Point Shared) (t : Thread) : ℕ :=
  code.left (Fintype.card Thread) wakes price (s.point t) fun object => (s.monitor object).pc t

theorem within_others (taken : step code ops s (t, .within point op) = some after)
    (other : u ≠ t) : after.left code wakes price u ≤ s.left code wakes price u + op.stirs u := by
  obtain ⟨rfl, object, call, here, _, m, moved, rfl⟩ := within_taken.mp taken
  simp only [State.left, Function.update_of_ne other]
  cases there : code.calls (s.point u) with
  | none =>
      simp only [Code.left, there]
      exact Nat.le_add_right _ _
  | some made =>
      obtain ⟨own, call'⟩ := made
      by_cases same : own = object
      · subst same
        have more : (m.pc u).left (Fintype.card Thread) wakes ≤
            ((s.monitor own).pc u).left (Fintype.card Thread) wakes + op.stirs u :=
          left_other (Fintype.card Thread) other moved
        by_cases outside : (s.monitor own).pc u = .outside
        · rcases other_step other moved with still | ⟨_, asleep, _⟩
          · simp only [Code.left, there, Function.update_self, still, outside]
            exact Nat.le_add_right _ _
          · cases outside.symm.trans asleep
        · have inside : m.pc u ≠ .outside := by
            rcases other_step other moved with still | ⟨_, _, awake⟩
            · rwa [still]
            · simp [awake]
          rw [left_inside (fun object => (s.monitor object).pc u) there outside,
            left_inside _ there (by simpa using inside)]
          simp only [Function.update_self]
          omega
      · simp only [Code.left, there, Function.update_of_ne same]
        exact Nat.le_add_right _ _

theorem within_pays (priced : Priced code wakes price fee)
    (notifies : Notifies ops (Fintype.card Thread) wakes) (placed : Placed code s)
    (taken : step code ops s (t, .within point op) = some after) :
    after.left code wakes price t + ∑ u, op.stirs u + 1 ≤
      s.left code wakes price t + fees fee (t, .within point op) := by
  obtain ⟨rfl, object, call, here, begun, m, moved, rfl⟩ := within_taken.mp taken
  have source := (own_step moved).1
  have paid := left_own notifies moved
  have enough := priced.call (s.point t) object call
    (ops.body call (s.monitor object).data).result here
  let pc (other : Object) : Monitor.Pc Call Result :=
    (Function.update s.monitor object m other).pc t
  have mine : pc object = m.pc t := by simp [pc]
  have own : s.left code wakes price t =
      code.left (Fintype.card Thread) wakes price (s.point t) fun other => (s.monitor other).pc t :=
    rfl
  have next : State.left code wakes price
      { s with
        monitor := Function.update s.monitor object m
        point := Function.update s.point t (code.next (s.point t) op) } t =
      code.left (Fintype.card Thread) wakes price (code.next (s.point t) op) pc := by
    simp [State.left, pc]
  rw [own, next]
  rcases placed.goes here moved begun with ⟨⟨result, rfl⟩, home⟩ | ⟨stays, serves⟩
  · have less := priced.call (s.point t) object call result here
    have all (other : Object) : pc other = .outside := by
      by_cases same : other = object
      · rw [same, mine, home]
      · simpa [pc, same] using placed.elsewhere here same
    rw [left_outside all, left_inside _ here (by rw [source]; nofun), source]
    simp only [Monitor.Op.source, Monitor.Op.stirs, Finset.sum_const_zero, Monitor.Pc.left, fees,
      Code.next]
    omega
  · have inside : pc object ≠ .outside := by
      rw [mine]
      exact serves_inside serves
    rw [next_point stays, left_inside pc here inside, mine]
    by_cases outside : (s.monitor object).pc t = .outside
    · rw [left_outside (placed.nowhere here outside)]
      rw [outside] at source paid
      cases op with
      | invoke made =>
          have same : made = call := of_decide_eq_true begun
          subst same
          simp only [Monitor.Pc.left, charge, fees] at paid ⊢
          omega
      | _ => cases source
    · have charged : charge wakes (t, op) = fees fee (t, .within (s.point t) op) := by
        cases op with
        | invoke made => exact absurd source outside
        | _ => rfl
      rw [left_inside _ here outside, ← charged]
      omega

theorem own_others (lawful : code.Lawful) (priced : Priced code wakes price fee)
    (placed : Placed code s) (taken : step code ops s (t, .own act) = some after) (other : u ≠ t) :
    after.left code wakes price u ≤ s.left code wakes price u := by
  obtain ⟨free, next, shared, acts, rfl⟩ := own_taken.mp taken
  by_cases idle : code.calls (s.point u) = none
  · have before : s.left code wakes price u = price (s.point u) :=
      left_outside (placed.free idle)
    have now : State.left code wakes price
        { s with
          shared := shared
          point := next } u = price (next u) := left_outside (placed.free idle)
    rw [before, now]
    exact (priced.own _ _ _ _ _ _ acts).2 u other
  · simp only [State.left, lawful.stays _ _ _ _ _ _ free acts u idle]
    exact le_rfl

theorem own_pays (priced : Priced code wakes price fee) (placed : Placed code s)
    (taken : step code ops s (t, .own act) = some after) :
    after.left code wakes price t + 1 ≤ s.left code wakes price t + fee act := by
  obtain ⟨free, next, shared, acts, rfl⟩ := own_taken.mp taken
  have paid := (priced.own _ _ _ _ _ _ acts).1
  have before : s.left code wakes price t = price (s.point t) := left_outside (placed.free free)
  have now : State.left code wakes price
      { s with
        shared := shared
        point := next } t = price (next t) := left_outside (placed.free free)
  omega

theorem length_le_fees {shared : Shared} {data : Object → Data} {start : Thread → Point}
    {allowed : State Object Thread Data Call Result Point Shared →
      Thread × Op Thread Data Call Result Point Act → Prop}
    {trace : List (Thread × Op Thread Data Call Result Point Act)}
    (lawful : code.Lawful) (priced : Priced code wakes price fee)
    (notifies : Notifies ops (Fintype.card Thread) wakes) (free : ∀ t, price (start t) = 0)
    (reached : Reaches (step code ops) allowed (init shared data start) trace s) :
    trace.length ≤ (trace.map (fees fee)).sum := by
  have paid := reached.length_le_charges (fun s => ∑ u, s.left code wakes price u) (fees fee)
    ?_ fun trace s label after reached _ taken => ?_
  · omega
  · refine Finset.sum_eq_zero fun t _ => ?_
    exact (left_outside fun _ => rfl).trans (free t)
  · obtain ⟨t, op⟩ := label
    have placed := reaches_placed lawful reached
    cases op with
    | own act =>
        have own := own_pays priced placed taken
        have others : ∀ u, u ≠ t →
            after.left code wakes price u ≤ s.left code wakes price u :=
          fun u other => own_others lawful priced placed taken other
        have moved := sum_moved_le others
        simp only [fees]
        omega
    | within point op =>
        have own := within_pays priced notifies placed taken
        have others : ∀ u, u ≠ t → after.left code wakes price u ≤
            s.left code wakes price u + op.stirs u := fun u other => within_others taken other
        have moved := sum_moved_le others
        rw [Finset.sum_add_distrib] at moved
        omega

end Payment
end ConcurrencyCourse.MonitorClients
