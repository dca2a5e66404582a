import ConcurrencyCourse.Interleaving
import Mathlib.Data.List.ModifyLast
import Mathlib.Data.List.Nodup
import Mathlib.Logic.Function.Basic

/-!
Asymmetric coroutines, as calls that can be left in the middle. A body (a
coroutine's, or a thread's own code) performs segments, suspends, resumes other
coroutines, throws and catches; its code is arbitrary and need not be
deterministic. Each thread carries a stack of Resume calls, and the body in
control is the innermost one whose Resume call is not over. A suspension, the
end of a body and an exception that no handler catches end the innermost Resume,
which then returns or throws in the body that called it.
-/

namespace ConcurrencyCourse.Asymmetric

open Interleaving

variable {Thread Co Code Exc : Type*}

inductive Body (Thread Co : Type*) where
  | thread (t : Thread)
  | coroutine (c : Co)
  deriving DecidableEq

def Body.coroutine? : Body Thread Co → Option Co
  | thread _ => none
  | coroutine c => some c

inductive Action (Co Code Exc : Type*) where
  | segment (rest : Code)
  | suspend (rest : Code)
  | resume (callee : Co) (rest : Code)
  | throw (e : Exc)
  | finish
  deriving DecidableEq

/-- Code is whatever `does` lets it do. `handler` is the code that catches an
exception raised at a point, if a handler of the same body encloses that point. -/
structure Program (Thread Co Code Exc : Type*) where
  main : Thread → Code
  payload : Co → Code
  does : Code → Action Co Code Exc → Bool
  handler : Code → Exc → Option Code

inductive Event (Co Code Exc : Type*) where
  | act (action : Action Co Code Exc)
  | resumed (callee : Co) (thrown : Option Exc)
  deriving DecidableEq

inductive Position (Co Code Exc : Type*) where
  | code (k : Code)
  | waiting (callee : Co) (rest : Code)
  | finished
  | threw (e : Exc)

namespace Position

def isOver : Position Co Code Exc → Bool
  | finished | threw _ => true
  | _ => false

def thrown : Position Co Code Exc → Option Exc
  | threw e => some e
  | _ => none

theorem thrown_eq_some {position : Position Co Code Exc} {e : Exc} :
    position.thrown = some e ↔ position = threw e := by
  cases position <;> simp [thrown]

theorem over_of_thrown {position : Position Co Code Exc} (throws : position.thrown ≠ none) :
    position.isOver = true := by
  cases position <;> simp [thrown, isOver] at throws ⊢

theorem finished_of_quiet {position : Position Co Code Exc} (ends : position.isOver = true)
    (quiet : position.thrown = none) : position = finished := by
  cases position <;> simp [thrown, isOver] at ends quiet ⊢

end Position

namespace Event

def suspends : Event Co Code Exc → Bool
  | act (.suspend _) => true
  | _ => false

def resumes : Event Co Code Exc → Option Co
  | act (.resume callee _) => some callee
  | _ => none

theorem suspends_eq_true {event : Event Co Code Exc} :
    event.suspends = true ↔ ∃ rest, event = act (.suspend rest) := by
  cases event with
  | act action => cases action <;> simp [suspends]
  | resumed callee thrown => simp [suspends]

end Event

namespace Program
variable (program : Program Thread Co Code Exc)

def entry : Body Thread Co → Code
  | .thread t => program.main t
  | .coroutine c => program.payload c

def raise (k : Code) (e : Exc) : Position Co Code Exc :=
  match program.handler k e with
  | some handled => .code handled
  | none => .threw e

def afterAct (k : Code) : Action Co Code Exc → Position Co Code Exc
  | .segment rest | .suspend rest => .code rest
  | .resume callee rest => .waiting callee rest
  | .throw e => program.raise k e
  | .finish => .finished

def afterResume (rest : Code) : Option Exc → Position Co Code Exc
  | none => .code rest
  | some e => program.raise rest e

def advance [DecidableEq Co] :
    Position Co Code Exc → Event Co Code Exc → Option (Position Co Code Exc)
  | .code k, .act action => guarded (program.does k action = true) (program.afterAct k action)
  | .waiting callee rest, .resumed ended thrown =>
      guarded (ended = callee) (program.afterResume rest thrown)
  | _, _ => none

end Program

structure Move (Thread Co Code Exc : Type*) where
  thread : Thread
  body : Body Thread Co
  event : Event Co Code Exc
  deriving DecidableEq

/-- `calls` are the Resume calls in progress, innermost first. `ended` says that
the innermost of them is over and about to return or to throw. -/
structure State (Thread Co Code Exc : Type*) where
  position : Body Thread Co → Position Co Code Exc
  calls : Thread → List Co
  ended : Thread → Option (Option Exc)

namespace Program
variable (program : Program Thread Co Code Exc)

theorem raise_stands (k : Code) (e : Exc) (callee : Co) (rest : Code) :
    program.raise k e ≠ .waiting callee rest := by
  unfold raise
  split <;> simp

theorem afterResume_stands (rest : Code) (thrown : Option Exc) (callee : Co) (k : Code) :
    program.afterResume rest thrown ≠ .waiting callee k := by
  cases thrown with
  | none => simp [afterResume]
  | some e => exact program.raise_stands rest e callee k

section Advance
variable {program : Program Thread Co Code Exc} [DecidableEq Co]
  {before after : Position Co Code Exc}

theorem advance_act {action : Action Co Code Exc} :
    program.advance before (.act action) = some after ↔
      ∃ k, before = .code k ∧ program.does k action = true ∧ after = program.afterAct k action := by
  constructor
  · intro moved
    cases before with
    | code k =>
        obtain ⟨does, rfl⟩ := guarded_eq_some.mp moved
        exact ⟨k, rfl, does, rfl⟩
    | _ => cases moved
  · rintro ⟨k, rfl, does, rfl⟩
    exact guarded_eq_some.mpr ⟨does, rfl⟩

theorem advance_resumed {callee : Co} {thrown : Option Exc} :
    program.advance before (.resumed callee thrown) = some after ↔
      ∃ rest, before = .waiting callee rest ∧ after = program.afterResume rest thrown := by
  constructor
  · intro moved
    cases before with
    | waiting awaited rest =>
        obtain ⟨rfl, rfl⟩ := guarded_eq_some.mp moved
        exact ⟨rest, rfl, rfl⟩
    | _ => cases moved
  · rintro ⟨rest, rfl, rfl⟩
    exact guarded_eq_some.mpr ⟨rfl, rfl⟩

theorem advance_resumes {event : Event Co Code Exc} {callee : Co}
    (moved : program.advance before event = some after) (resumes : event.resumes = some callee) :
    ∃ rest, event = .act (.resume callee rest) ∧ after = .waiting callee rest := by
  cases event with
  | act action =>
      cases action with
      | resume c rest =>
          cases resumes
          obtain ⟨_, _, _, rfl⟩ := advance_act.mp moved
          exact ⟨rest, rfl, rfl⟩
      | _ => cases resumes
  | resumed c thrown => cases resumes

theorem advance_stays {event : Event Co Code Exc}
    (moved : program.advance before event = some after)
    (stands : ∀ callee rest, after ≠ .waiting callee rest) : event.resumes = none := by
  cases resumes : event.resumes with
  | none => rfl
  | some callee =>
      obtain ⟨rest, _, waits⟩ := advance_resumes moved resumes
      exact absurd waits (stands callee rest)

theorem advance_suspends {event : Event Co Code Exc}
    (moved : program.advance before event = some after) (suspends : event.suspends = true) :
    event.resumes = none ∧ after.isOver = false := by
  obtain ⟨rest, rfl⟩ := Event.suspends_eq_true.mp suspends
  obtain ⟨k, _, _, rfl⟩ := advance_act.mp moved
  exact ⟨rfl, rfl⟩

theorem advance_stops {event : Event Co Code Exc}
    (moved : program.advance before event = some after)
    (stops : (event.suspends || after.isOver) = true) : event.resumes = none := by
  rcases Bool.or_eq_true_iff.mp stops with suspends | finished
  · exact (advance_suspends moved suspends).1
  · refine advance_stays moved ?_
    rintro callee rest rfl
    simp [Position.isOver] at finished

theorem advance_waiting {event : Event Co Code Exc} {callee : Co} {rest : Code}
    (moved : program.advance before event = some (.waiting callee rest)) :
    event = .act (.resume callee rest) := by
  cases event with
  | act action =>
      obtain ⟨k, _, _, same⟩ := advance_act.mp moved
      cases action with
      | throw e => exact absurd same.symm (program.raise_stands k e callee rest)
      | _ => simp_all [afterAct]
  | resumed ended thrown =>
      obtain ⟨back, _, same⟩ := advance_resumed.mp moved
      cases thrown with
      | none => cases same
      | some e => exact absurd same.symm (program.raise_stands back e callee rest)

end Advance

end Program

def init (program : Program Thread Co Code Exc) : State Thread Co Code Exc where
  position body := .code (program.entry body)
  calls _ := []
  ended _ := none

def innermost (t : Thread) : List Co → Body Thread Co
  | [] => .thread t
  | c :: _ => .coroutine c

def State.held (s : State Thread Co Code Exc) (t : Thread) : List Co :=
  match s.ended t with
  | none => s.calls t
  | some _ => (s.calls t).tail

def State.inControl (s : State Thread Co Code Exc) (t : Thread) : Body Thread Co :=
  innermost t (s.held t)

namespace Event

/-- The event that a thread takes next: an action while the innermost Resume is
going on, its return or exception once it is over. -/
def due : Event Co Code Exc → Option (Option Exc)
  | act _ => none
  | resumed _ thrown => some thrown

def callsAfter (held : List Co) : Event Co Code Exc → List Co
  | act (.resume callee _) => callee :: held
  | _ => held

def ending (event : Event Co Code Exc) (after : Position Co Code Exc) :
    Body Thread Co → Option (Option Exc)
  | .thread _ => none
  | .coroutine _ => if event.suspends || after.isOver then some after.thrown else none

end Event

section Machine
variable [DecidableEq Thread] [DecidableEq Co]

def State.after (s : State Thread Co Code Exc) (t : Thread) (event : Event Co Code Exc)
    (there : Position Co Code Exc) : State Thread Co Code Exc where
  position := Function.update s.position (s.inControl t) there
  calls := Function.update s.calls t (event.callsAfter (s.held t))
  ended := Function.update s.ended t (event.ending there (s.inControl t))

variable [DecidableEq Exc]

def step (program : Program Thread Co Code Exc) (s : State Thread Co Code Exc)
    (move : Move Thread Co Code Exc) : Option (State Thread Co Code Exc) :=
  if move.body = s.inControl move.thread ∧ move.event.due = s.ended move.thread then
    (program.advance (s.position move.body) move.event).map (s.after move.thread move.event)
  else none

theorem step_eq_some {program : Program Thread Co Code Exc} {s after : State Thread Co Code Exc}
    {t : Thread} {body : Body Thread Co} {event : Event Co Code Exc} :
    step program s ⟨t, body, event⟩ = some after ↔
      body = s.inControl t ∧ event.due = s.ended t ∧
        ∃ there, program.advance (s.position (s.inControl t)) event = some there ∧
          s.after t event there = after := by
  simp only [step]
  split
  · rename_i due
    rw [Option.map_eq_some_iff, due.1]
    exact ⟨fun moved => ⟨rfl, due.2, moved⟩, fun moved => moved.2.2⟩
  · rename_i other
    constructor
    · intro taken
      cases taken
    · rintro ⟨mine, due, _⟩
      exact absurd ⟨mine, due⟩ other

end Machine

/-- Suspend is called inside a coroutine only, and Resume only on a coroutine that
is not completed and for which no Resume call is in progress. -/
def allowed (s : State Thread Co Code Exc) (move : Move Thread Co Code Exc) : Prop :=
  (move.event.suspends = true → ∀ t, move.body ≠ .thread t) ∧
    ∀ callee, move.event.resumes = some callee →
      (s.position (.coroutine callee)).isOver = false ∧ ∀ t, callee ∉ s.calls t

theorem callsAfter_stays {event : Event Co Code Exc} (held : List Co)
    (stays : event.resumes = none) : event.callsAfter held = held := by
  cases event with
  | act action => cases action <;> first | rfl | cases stays
  | resumed callee thrown => rfl

def Within (t : Thread) (calls : List Co) (body : Body Thread Co) : Prop :=
  body = .thread t ∨ ∃ c ∈ calls, body = .coroutine c

theorem innermost_within (t : Thread) (calls : List Co) : Within t calls (innermost t calls) := by
  cases calls with
  | nil => exact .inl rfl
  | cons c rest => exact .inr ⟨c, List.mem_cons_self, rfl⟩

theorem Within.mono {t : Thread} {calls more : List Co} {body : Body Thread Co}
    (within : Within t calls body) (part : calls ⊆ more) : Within t more body := by
  rcases within with own | ⟨c, called, here⟩
  · exact .inl own
  · exact .inr ⟨c, part called, here⟩

theorem State.held_part (s : State Thread Co Code Exc) (t : Thread) : s.held t <:+ s.calls t := by
  unfold State.held
  split
  · exact List.suffix_refl _
  · exact List.tail_suffix _

theorem State.inControl_within (s : State Thread Co Code Exc) (t : Thread) :
    Within t (s.calls t) (s.inControl t) :=
  (innermost_within t _).mono (s.held_part t).subset

def Linked (position : Body Thread Co → Position Co Code Exc) (t : Thread)
    (calls : List Co) : Prop :=
  ∀ c rest, c :: rest <:+ calls → ∃ k, position (innermost t rest) = .waiting c k

/-- The top of a thread's stack: its innermost body is at a point of its code, or
the innermost Resume is over and the coroutine has stopped there. -/
inductive Top (position : Body Thread Co → Position Co Code Exc) (t : Thread) :
    List Co → Option (Option Exc) → Prop where
  | alone (idle : ∀ callee k, position (.thread t) ≠ .waiting callee k) : Top position t [] none
  | going {c : Co} {rest : List Co} {k : Code} (here : position (.coroutine c) = .code k) :
      Top position t (c :: rest) none
  | stopped {c : Co} {rest : List Co} {thrown : Option Exc}
      (stands : ∀ callee k, position (.coroutine c) ≠ .waiting callee k)
      (result : (position (.coroutine c)).thrown = thrown) :
      Top position t (c :: rest) (some thrown)

structure Sound (s : State Thread Co Code Exc) : Prop where
  nodup : ∀ t, (s.calls t).Nodup
  apart : ∀ t t' c, c ∈ s.calls t → c ∈ s.calls t' → t = t'
  linked : ∀ t, Linked s.position t (s.calls t)
  top : ∀ t, Top s.position t (s.calls t) (s.ended t)
  idle : ∀ c, (∀ t, c ∉ s.calls t) → ∀ callee k, s.position (.coroutine c) ≠ .waiting callee k

theorem Linked.cons {position : Body Thread Co → Position Co Code Exc} {t : Thread} {c : Co}
    {rest : List Co} {k : Code} (link : position (innermost t rest) = .waiting c k)
    (linked : Linked position t rest) : Linked position t (c :: rest) := by
  intro c' rest' suffix
  rcases List.suffix_cons_iff.mp suffix with same | inside
  · cases same
    exact ⟨k, link⟩
  · exact linked c' rest' inside

theorem Linked.tail {position : Body Thread Co → Position Co Code Exc} {t : Thread} {c : Co}
    {rest : List Co} (linked : Linked position t (c :: rest)) : Linked position t rest :=
  fun c' rest' suffix => linked c' rest' (suffix.trans (List.suffix_cons c rest))

theorem Linked.frame {position position' : Body Thread Co → Position Co Code Exc} {t : Thread}
    {calls : List Co} (linked : Linked position t calls)
    (same : ∀ body, Within t calls body → position' body = position body) :
    Linked position' t calls := by
  intro c rest suffix
  have below : rest ⊆ calls := fun x inside => suffix.subset (List.mem_cons_of_mem c inside)
  rw [same _ ((innermost_within t rest).mono below)]
  exact linked c rest suffix

theorem Top.frame {position position' : Body Thread Co → Position Co Code Exc} {t : Thread}
    {calls : List Co} {ended : Option (Option Exc)} (top : Top position t calls ended)
    (same : ∀ body, Within t calls body → position' body = position body) :
    Top position' t calls ended := by
  cases top with
  | alone idle =>
      refine .alone ?_
      rw [same _ (.inl rfl)]
      exact idle
  | going here => exact .going ((same _ (.inr ⟨_, List.mem_cons_self, rfl⟩)).trans here)
  | stopped stands result =>
      have head := same _ (.inr ⟨_, List.mem_cons_self, rfl⟩)
      refine .stopped ?_ ?_
      · rw [head]
        exact stands
      · rw [head]
        exact result

theorem innermost_fresh {t : Thread} {calls rest : List Co} {c : Co} (nodup : calls.Nodup)
    (suffix : c :: rest <:+ calls) : innermost t rest ≠ innermost t calls := by
  intro same
  cases calls with
  | nil => cases List.suffix_nil.mp suffix
  | cons c' below =>
      cases rest with
      | nil => cases same
      | cons d deeper =>
          cases same
          -- The head of the list would occur again below itself.
          have again : c' ∈ below := by
            rcases List.suffix_cons_iff.mp suffix with whole | inside
            · cases whole
              exact List.mem_cons_self
            · exact inside.subset (List.mem_cons_of_mem c List.mem_cons_self)
          exact (List.nodup_cons.mp nodup).1 again

section Outside
variable {s : State Thread Co Code Exc}

theorem Sound.outside (sound : Sound s) {t : Thread} {c : Co}
    (elsewhere : ∀ t', t' ≠ t → c ∉ s.calls t') (here : c ∉ s.calls t) (callee : Co) (k : Code) :
    s.position (.coroutine c) ≠ .waiting callee k := by
  refine sound.idle c ?_ callee k
  intro t' called
  by_cases same : t' = t
  · exact here (same ▸ called)
  · exact elsewhere t' same called

theorem Sound.others (sound : Sound s) {t : Thread} {c : Co} (called : c ∈ s.calls t)
    (t' : Thread) (other : t' ≠ t) : c ∉ s.calls t' :=
  fun elsewhere => other (sound.apart _ _ _ elsewhere called)

theorem Sound.held_nodup (sound : Sound s) (t : Thread) : (s.held t).Nodup :=
  (sound.nodup t).sublist (s.held_part t).sublist

theorem Sound.held_linked (sound : Sound s) (t : Thread) : Linked s.position t (s.held t) :=
  fun c rest suffix => sound.linked t c rest (suffix.trans (s.held_part t))

/-- A coroutine that is in none of the calls that go on waits for nothing: it was
called by nobody, or its Resume is over. -/
theorem Sound.left (sound : Sound s) {t : Thread} {c : Co}
    (elsewhere : ∀ t', t' ≠ t → c ∉ s.calls t') (here : c ∉ s.held t) (callee : Co) (k : Code) :
    s.position (.coroutine c) ≠ .waiting callee k := by
  by_cases called : c ∈ s.calls t
  · have top := sound.top t
    unfold State.held at here
    generalize s.calls t = calls at *
    generalize s.ended t = ended at *
    cases top with
    | alone idle => cases called
    | going there => exact absurd called here
    | stopped stands result =>
        rcases List.mem_cons.mp called with rfl | below
        · exact stands callee k
        · exact absurd below here
  · exact sound.outside elsewhere called callee k

theorem State.inControl_coroutine {c : Co} {t : Thread} (same : s.inControl t = .coroutine c) :
    c ∈ s.held t := by
  unfold State.inControl at same
  cases held : s.held t with
  | nil =>
      rw [held] at same
      cases same
  | cons d rest =>
      rw [held] at same
      cases same
      exact List.mem_cons_self

theorem called_apart {c : Co} {move : Move Thread Co Code Exc} (admitted : allowed s move)
    (called : move.event.resumes = some c) : s.inControl move.thread ≠ .coroutine c := fun mine =>
  (admitted.2 c called).2 move.thread
    ((s.held_part move.thread).subset (State.inControl_coroutine mine))

end Outside

section Soundness
variable [DecidableEq Thread] [DecidableEq Co]
variable {program : Program Thread Co Code Exc} {s after : State Thread Co Code Exc}

theorem Linked.moved {position : Body Thread Co → Position Co Code Exc} {t : Thread}
    {calls : List Co} (linked : Linked position t calls) (nodup : calls.Nodup)
    (there : Position Co Code Exc) :
    Linked (Function.update position (innermost t calls) there) t calls := by
  intro c rest suffix
  rw [Function.update_of_ne (innermost_fresh nodup suffix)]
  exact linked c rest suffix

theorem top_moved (position : Body Thread Co → Position Co Code Exc) (t : Thread)
    (calls : List Co) (event : Event Co Code Exc) {there : Position Co Code Exc}
    (stands : ∀ callee k, there ≠ .waiting callee k) :
    Top (Function.update position (innermost t calls) there) t calls
      (event.ending there (innermost t calls)) := by
  cases calls with
  | nil => exact .alone (by simpa [innermost] using stands)
  | cons c rest =>
      simp only [innermost, Event.ending]
      split
      · exact .stopped (by simpa using stands) (by simp)
      · rename_i going
        cases there with
        | code k => exact .going (Function.update_self ..)
        | waiting callee k => exact absurd rfl (stands callee k)
        | finished => simp [Position.isOver] at going
        | threw e => simp [Position.isOver] at going

theorem Sound.elsewhere (sound : Sound s) {t t' : Thread} (different : t' ≠ t)
    {body : Body Thread Co} (mine : Within t (s.calls t) body) (there : Position Co Code Exc) :
    ∀ other, Within t' (s.calls t') other →
      Function.update s.position body there other = s.position other := by
  intro other within
  refine Function.update_of_ne ?_ ..
  rintro rfl
  rcases mine with rfl | ⟨c, called, rfl⟩ <;> rcases within with own | ⟨c', called', here⟩
  · cases own
    exact different rfl
  · cases here
  · cases own
  · cases here
    exact different (sound.apart _ _ _ called' called)

theorem Sound.moved (sound : Sound s) {t : Thread} {body : Body Thread Co}
    {there : Position Co Code Exc} {calls : List Co} {ended : Option (Option Exc)}
    (mine : Within t (s.calls t) body) (nodup : calls.Nodup)
    (apart : ∀ c ∈ calls, ∀ t', t' ≠ t → c ∉ s.calls t')
    (linked : Linked (Function.update s.position body there) t calls)
    (top : Top (Function.update s.position body there) t calls ended)
    (idle : ∀ c, (∀ t', t' ≠ t → c ∉ s.calls t') → c ∉ calls →
      ∀ callee k, Function.update s.position body there (.coroutine c) ≠ .waiting callee k) :
    Sound { position := Function.update s.position body there
            calls := Function.update s.calls t calls
            ended := Function.update s.ended t ended } where
  nodup t' := by
    by_cases same : t' = t
    · subst same
      simpa using nodup
    · simpa [same] using sound.nodup t'
  apart t₁ t₂ c one two := by
    by_cases first : t₁ = t <;> by_cases second : t₂ = t
    · exact first.trans second.symm
    · subst first
      simp only [Function.update_self] at one
      simp only [Function.update_of_ne second] at two
      exact absurd two (apart c one t₂ second)
    · subst second
      simp only [Function.update_self] at two
      simp only [Function.update_of_ne first] at one
      exact absurd one (apart c two t₁ first)
    · simp only [Function.update_of_ne first] at one
      simp only [Function.update_of_ne second] at two
      exact sound.apart t₁ t₂ c one two
  linked t' := by
    by_cases same : t' = t
    · subst same
      simpa using linked
    · simp only [Function.update_of_ne same]
      exact (sound.linked t').frame (sound.elsewhere same mine there)
  top t' := by
    by_cases same : t' = t
    · subst same
      simpa using top
    · simp only [Function.update_of_ne same]
      exact (sound.top t').frame (sound.elsewhere same mine there)
  idle c outside := by
    refine idle c ?_ ?_
    · intro t' other
      simpa [other] using outside t'
    · simpa using outside t

theorem placed_within {c : Co} (free : ∀ t, c ∉ s.calls t) (k : Code) (t : Thread)
    (body : Body Thread Co) (within : Within t (s.calls t) body) :
    Function.update s.position (.coroutine c) (.code k) body = s.position body := by
  refine Function.update_of_ne ?_ ..
  rintro rfl
  rcases within with own | ⟨d, called, here⟩
  · cases own
  · cases here
    exact free t called

/-- A coroutine outside every call is the moved body only if it has just left
the stack; it waits for nothing either way. -/
theorem update_stands (position : Body Thread Co → Position Co Code Exc) (body : Body Thread Co)
    {there : Position Co Code Exc} {other : Body Thread Co}
    (stands : ∀ callee k, there ≠ .waiting callee k)
    (still : ∀ callee k, position other ≠ .waiting callee k) (callee : Co) (k : Code) :
    Function.update position body there other ≠ .waiting callee k := by
  by_cases same : other = body
  · subst same
    simpa using stands callee k
  · simpa [same] using still callee k

theorem Sound.went (sound : Sound s) (t : Thread) {event : Event Co Code Exc}
    {there : Position Co Code Exc} (stays : event.resumes = none)
    (stands : ∀ callee k, there ≠ .waiting callee k) : Sound (s.after t event there) := by
  have same := callsAfter_stays (s.held t) stays
  refine sound.moved (s.inControl_within t) ?_ ?_ ?_ ?_ ?_ <;> rw [same]
  · exact sound.held_nodup t
  · exact fun c called => sound.others ((s.held_part t).subset called)
  · exact (sound.held_linked t).moved (sound.held_nodup t) there
  · exact top_moved s.position t (s.held t) event stands
  · intro c elsewhere here
    exact update_stands _ _ stands (sound.left elsewhere here)

theorem Sound.entered (sound : Sound s) {t : Thread} {callee : Co} {rest : Code}
    (ready : (s.position (.coroutine callee)).isOver = false) (free : ∀ t', callee ∉ s.calls t') :
    Sound (s.after t (.act (.resume callee rest)) (.waiting callee rest)) := by
  have absent : callee ∉ s.held t := fun called => free t ((s.held_part t).subset called)
  have apart {c : Co} (outside : c ∉ s.held t) : Body.coroutine c ≠ s.inControl t :=
    fun same => outside (State.inControl_coroutine same.symm)
  refine sound.moved (s.inControl_within t)
    (List.nodup_cons.mpr ⟨absent, sound.held_nodup t⟩) ?_ ?_ ?_ ?_
  · intro c called t' other
    rcases List.mem_cons.mp called with rfl | before
    · exact free t'
    · exact sound.others ((s.held_part t).subset before) t' other
  · exact .cons (Function.update_self ..) ((sound.held_linked t).moved (sound.held_nodup t) _)
  · obtain ⟨k, here⟩ : ∃ k, s.position (.coroutine callee) = .code k := by
      cases there : s.position (.coroutine callee) with
      | code k => exact ⟨k, rfl⟩
      | waiting c k => exact absurd there (sound.idle callee free c k)
      | finished => simp [there, Position.isOver] at ready
      | threw e => simp [there, Position.isOver] at ready
    have unended : (Event.act (.resume callee rest)).ending (.waiting callee rest)
        (s.inControl t) = (none : Option (Option Exc)) := by
      cases s.inControl t <;> rfl
    rw [unended]
    exact .going ((Function.update_of_ne (apart absent) ..).trans here)
  · intro c elsewhere here
    have other : c ∉ s.held t := fun called => here (List.mem_cons_of_mem _ called)
    rw [Function.update_of_ne (apart other)]
    exact sound.left elsewhere other

theorem Sound.step [DecidableEq Exc] (sound : Sound s) {move : Move Thread Co Code Exc}
    (admitted : allowed s move) (taken : step program s move = some after) : Sound after := by
  obtain ⟨t, body, event⟩ := move
  obtain ⟨_, _, there, moved, rfl⟩ := step_eq_some.mp taken
  cases there with
  | waiting callee rest =>
      cases Program.advance_waiting moved
      obtain ⟨ready, free⟩ := admitted.2 _ rfl
      exact sound.entered ready free
  | _ => exact sound.went t (Program.advance_stays moved (by simp)) (by simp)

theorem Sound.placed (sound : Sound s) {c : Co} (free : ∀ t, c ∉ s.calls t) (k : Code) :
    Sound { s with
      position := Function.update s.position (.coroutine c) (.code k) } where
  nodup := sound.nodup
  apart := sound.apart
  linked t := (sound.linked t).frame (placed_within free k t)
  top t := (sound.top t).frame (placed_within free k t)
  idle d outside :=
    update_stands s.position (.coroutine c) (by simp) (sound.idle d outside)

end Soundness

theorem init_sound (program : Program Thread Co Code Exc) : Sound (init program) where
  nodup _ := List.nodup_nil
  apart _ _ _ called := absurd called List.not_mem_nil
  linked _ c rest suffix := by
    cases List.suffix_nil.mp suffix
  top _ := .alone (by simp [init])
  idle _ _ := by simp [init]

/-- What one Resume call has run of its callee. -/
structure Round (Thread Co Code Exc : Type*) where
  thread : Thread
  caller : Body Thread Co
  events : List (Event Co Code Exc)

section Rounds
variable [DecidableEq Thread] [DecidableEq Co]

def performed (body : Body Thread Co) (trace : List (Move Thread Co Code Exc)) :
    List (Event Co Code Exc) :=
  trace.filterMap fun move => if move.body = body then some move.event else none

def record (c : Co) (rounds : List (Round Thread Co Code Exc)) (move : Move Thread Co Code Exc) :
    List (Round Thread Co Code Exc) :=
  if move.event.resumes = some c then rounds ++ [⟨move.thread, move.body, []⟩]
  else if move.body = .coroutine c then
    rounds.modifyLast fun round => { round with events := round.events ++ [move.event] }
  else rounds

def rounds (c : Co) (trace : List (Move Thread Co Code Exc)) : List (Round Thread Co Code Exc) :=
  trace.foldl (record c) []

theorem rounds_snoc (c : Co) (trace : List (Move Thread Co Code Exc))
    (move : Move Thread Co Code Exc) :
    rounds c (trace ++ [move]) = record c (rounds c trace) move := by
  simp [rounds]

theorem performed_snoc (body : Body Thread Co) (trace : List (Move Thread Co Code Exc))
    (move : Move Thread Co Code Exc) :
    performed body (trace ++ [move]) =
      performed body trace ++ if move.body = body then [move.event] else [] := by
  by_cases same : move.body = body <;> simp [performed, same]

theorem record_mine {c : Co} (early : List (Round Thread Co Code Exc))
    (last : Round Thread Co Code Exc) {t : Thread} {event : Event Co Code Exc}
    (other : event.resumes ≠ some c) :
    record c (early ++ [last]) ⟨t, .coroutine c, event⟩ =
      early ++ [{ last with events := last.events ++ [event] }] := by
  simp [record, other, List.modifyLast_concat]

theorem record_other {c : Co} (rounds : List (Round Thread Co Code Exc)) {t : Thread}
    {body : Body Thread Co} {event : Event Co Code Exc} (other : event.resumes ≠ some c)
    (elsewhere : body ≠ .coroutine c) : record c rounds ⟨t, body, event⟩ = rounds := by
  simp [record, other, elsewhere]

end Rounds

section Path
variable [DecidableEq Thread] [DecidableEq Co] [DecidableEq Exc]
variable {program : Program Thread Co Code Exc} {s : State Thread Co Code Exc}
  {trace : List (Move Thread Co Code Exc)}

theorem sound (reached : Reaches (step program) allowed (init program) trace s) : Sound s :=
  reached.invariant (init_sound program) fun _ _ _ before admitted taken =>
    before.step admitted taken

theorem performed_path (reached : Reaches (step program) allowed (init program) trace s)
    (body : Body Thread Co) :
    run program.advance (.code (program.entry body)) (performed body trace) =
      some (s.position body) := by
  induction reached with
  | start => rfl
  | @next trace s after move _ _ taken ih =>
      obtain ⟨t, mover, event⟩ := move
      obtain ⟨rfl, _, there, moved, rfl⟩ := step_eq_some.mp taken
      rw [performed_snoc]
      by_cases same : body = s.inControl t
      · subst same
        rw [if_pos rfl, run_append, ih]
        simp [run, moved, State.after]
      · have other : ¬ s.inControl t = body := fun eq => same eq.symm
        simpa [other, State.after, Function.update_of_ne same] using ih

end Path

def Stretch (events : List (Event Co Code Exc)) : Prop :=
  ∀ event ∈ events, event.suspends = false

def Suspended (events : List (Event Co Code Exc)) : Prop :=
  ∃ work rest, events = work ++ [.act (.suspend rest)] ∧ Stretch work

/-- The Resume calls of a coroutine cut its body at the suspensions: each ran up to
a suspension, but for the last while it goes on or once the body is over. -/
inductive Paced (s : State Thread Co Code Exc) (c : Co) :
    List (Round Thread Co Code Exc) → Prop where
  | resting {rounds : List (Round Thread Co Code Exc)}
      (full : ∀ round ∈ rounds, Suspended round.events) (outside : ∀ t, c ∉ s.held t)
      (unfinished : (s.position (.coroutine c)).isOver = false) : Paced s c rounds
  | going {rounds : List (Round Thread Co Code Exc)} {last : Round Thread Co Code Exc}
      (full : ∀ round ∈ rounds, Suspended round.events) (stretch : Stretch last.events)
      (t : Thread) (inside : c ∈ s.held t) : Paced s c (rounds ++ [last])
  | complete {rounds : List (Round Thread Co Code Exc)} {last : Round Thread Co Code Exc}
      (full : ∀ round ∈ rounds, Suspended round.events) (stretch : Stretch last.events)
      (finished : (s.position (.coroutine c)).isOver = true) : Paced s c (rounds ++ [last])

theorem Stretch.snoc {events : List (Event Co Code Exc)} (stretch : Stretch events)
    {event : Event Co Code Exc} (goes : event.suspends = false) :
    Stretch (events ++ [event]) := by
  intro e inside
  rcases List.mem_append.mp inside with before | new
  · exact stretch e before
  · cases List.mem_singleton.mp new
    exact goes

theorem Linked.waits {position : Body Thread Co → Position Co Code Exc} {t : Thread} {d : Co}
    {below : List Co} (linked : Linked position t (d :: below)) {c : Co} (called : c ∈ below) :
    ∃ callee k, position (.coroutine c) = .waiting callee k := by
  induction below generalizing d with
  | nil => cases called
  | cons e below ih =>
      rcases List.mem_cons.mp called with rfl | deeper
      · exact ⟨d, linked d _ (List.suffix_refl _)⟩
      · exact ih linked.tail deeper

theorem Sound.held_unfinished {s : State Thread Co Code Exc} (sound : Sound s) {t : Thread} {c : Co}
    (inside : c ∈ s.held t) : (s.position (.coroutine c)).isOver = false := by
  have top := sound.top t
  have linked := sound.linked t
  unfold State.held at inside
  generalize s.calls t = calls at *
  generalize s.ended t = ended at *
  have below {d : Co} {rest : List Co} (linked : Linked s.position t (d :: rest))
      (called : c ∈ rest) : (s.position (.coroutine c)).isOver = false := by
    obtain ⟨callee, k, waits⟩ := linked.waits called
    simp [waits, Position.isOver]
  cases top with
  | alone idle => cases inside
  | going here =>
      rcases List.mem_cons.mp inside with rfl | called
      · simp [here, Position.isOver]
      · exact below linked called
  | stopped stands result => exact below linked inside

theorem Paced.ongoing {s : State Thread Co Code Exc} {c : Co}
    {rounds : List (Round Thread Co Code Exc)} {t : Thread} (paced : Paced s c rounds)
    (sound : Sound s) (inside : c ∈ s.held t) :
    ∃ early last, rounds = early ++ [last] ∧ (∀ round ∈ early, Suspended round.events) ∧
      Stretch last.events := by
  cases paced with
  | resting _ outside _ => exact absurd inside (outside t)
  | going full stretch _ _ => exact ⟨_, _, rfl, full, stretch⟩
  | complete full stretch finished =>
      rw [sound.held_unfinished inside] at finished
      cases finished

section Pace
variable [DecidableEq Thread] [DecidableEq Co]
variable {program : Program Thread Co Code Exc} {s : State Thread Co Code Exc} {t : Thread}
  {event : Event Co Code Exc} {there : Position Co Code Exc} {c : Co}

theorem held_elsewhere {t' : Thread} (other : t' ≠ t) :
    (s.after t event there).held t' = s.held t' := by
  simp [State.held, State.after, other]

theorem held_here : (s.after t event there).held t =
    match event.ending there (s.inControl t) with
    | none => event.callsAfter (s.held t)
    | some _ => (event.callsAfter (s.held t)).tail := by
  simp [State.held, State.after]

theorem held_going (mine : s.inControl t = .coroutine c) (goes : event.suspends = false)
    (unfinished : there.isOver = false) : c ∈ (s.after t event there).held t := by
  have inside := State.inControl_coroutine mine
  have unended : event.ending there (s.inControl t) = none := by
    simp [mine, Event.ending, goes, unfinished]
  rw [held_here, unended]
  cases event with
  | act action => cases action <;> first | exact inside | exact List.mem_cons_of_mem _ inside
  | resumed callee thrown => exact inside

theorem held_stopped (sound : Sound s) (mine : s.inControl t = .coroutine c)
    (stays : event.resumes = none) (stops : (event.suspends || there.isOver) = true) (t' : Thread) :
    c ∉ (s.after t event there).held t' := by
  have inside := State.inControl_coroutine mine
  by_cases same : t' = t
  · subst same
    have ended : event.ending there (s.inControl t') = some there.thrown := by
      rw [mine]
      exact if_pos stops
    rw [held_here, ended, callsAfter_stays _ stays]
    have nodup := sound.held_nodup t'
    unfold State.inControl at mine
    generalize s.held t' = held at *
    cases held with
    | nil => cases inside
    | cons d rest =>
        cases mine
        exact (List.nodup_cons.mp nodup).1
  · rw [held_elsewhere same]
    intro called
    exact same (sound.apart _ _ _ ((s.held_part t').subset called)
      ((s.held_part t).subset inside))

theorem held_other (elsewhere : s.inControl t ≠ .coroutine c) (uncalled : event.resumes ≠ some c)
    (t' : Thread) : c ∈ (s.after t event there).held t' ↔ c ∈ s.held t' := by
  by_cases same : t' = t
  · subst same
    rw [held_here]
    have called : c ∈ event.callsAfter (s.held t') ↔ c ∈ s.held t' := by
      cases event with
      | act action =>
          cases action with
          | resume callee rest =>
              have apart : c ≠ callee := fun eq => uncalled (congrArg some eq.symm)
              simp [Event.callsAfter, apart]
          | _ => rfl
      | resumed callee thrown => rfl
    split
    · exact called
    · rename_i thrown ended
      cases resumes : event.resumes with
      | none =>
          rw [callsAfter_stays _ resumes]
          unfold State.inControl at elsewhere ended
          cases held : s.held t' with
          | nil => rfl
          | cons d rest =>
              rw [held] at elsewhere
              have apart : c ≠ d := fun eq => elsewhere (congrArg Body.coroutine eq.symm)
              simp [apart]
      | some callee =>
          cases event with
          | act action =>
              cases action with
              | resume d rest => rfl
              | _ => cases resumes
          | resumed d thrown => cases resumes
  · rw [held_elsewhere same]

theorem after_own (mine : s.inControl t = .coroutine c) :
    (s.after t event there).position (.coroutine c) = there := by
  simp [State.after, mine]

theorem after_other (elsewhere : s.inControl t ≠ .coroutine c) :
    (s.after t event there).position (.coroutine c) = s.position (.coroutine c) :=
  Function.update_of_ne (fun eq => elsewhere eq.symm) ..

variable {rounds : List (Round Thread Co Code Exc)}

theorem Paced.mine (paced : Paced s c rounds) (sound : Sound s)
    (mine : s.inControl t = .coroutine c) (uncalled : event.resumes ≠ some c)
    (stays : (event.suspends || there.isOver) = true → event.resumes = none)
    (suspended : event.suspends = true → there.isOver = false) :
    Paced (s.after t event there) c (record c rounds ⟨t, .coroutine c, event⟩) := by
  obtain ⟨early, last, rfl, full, stretch⟩ := paced.ongoing sound (State.inControl_coroutine mine)
  rw [record_mine early last uncalled]
  cases suspends : event.suspends with
  | true =>
      have stops : (event.suspends || there.isOver) = true := by simp [suspends]
      refine .resting ?_ (held_stopped sound mine (stays stops) stops) ?_
      · intro round inside
        rcases List.mem_append.mp inside with before | new
        · exact full round before
        · cases List.mem_singleton.mp new
          obtain ⟨rest, rfl⟩ := Event.suspends_eq_true.mp suspends
          exact ⟨last.events, rest, rfl, stretch⟩
      · rw [after_own mine]
        exact suspended suspends
  | false =>
      cases finished : there.isOver with
      | true => exact .complete full (stretch.snoc suspends) ((after_own mine).symm ▸ finished)
      | false => exact .going full (stretch.snoc suspends) t (held_going mine suspends finished)

theorem Paced.called {rest : Code} (paced : Paced s c rounds)
    (ready : (s.position (.coroutine c)).isOver = false) (free : ∀ t', c ∉ s.calls t')
    (body : Body Thread Co) :
    Paced (s.after t (.act (.resume c rest)) (.waiting c rest)) c
      (record c rounds ⟨t, body, .act (.resume c rest)⟩) := by
  have inside : c ∈ (s.after t (.act (.resume c rest)) (.waiting c rest)).held t := by
    have unended : (Event.act (.resume c rest)).ending (.waiting c rest)
        (s.inControl t) = (none : Option (Option Exc)) := by
      cases s.inControl t <;> rfl
    rw [held_here, unended]
    exact List.mem_cons_self
  have absent (t' : Thread) : c ∉ s.held t' := fun called =>
    free t' ((s.held_part t').subset called)
  have begins : record c rounds ⟨t, body, .act (.resume c rest)⟩ = rounds ++ [⟨t, body, []⟩] :=
    if_pos rfl
  rw [begins]
  cases paced with
  | resting full _ _ => exact .going full (fun _ inside => absurd inside List.not_mem_nil) t inside
  | going _ _ t' held => exact absurd held (absent t')
  | complete _ _ finished =>
      rw [ready] at finished
      cases finished

theorem Paced.other (paced : Paced s c rounds) (elsewhere : s.inControl t ≠ .coroutine c)
    (uncalled : event.resumes ≠ some c) : Paced (s.after t event there) c rounds := by
  have same : (s.after t event there).position (.coroutine c) = s.position (.coroutine c) :=
    after_other elsewhere
  have held (t' : Thread) : c ∈ (s.after t event there).held t' ↔ c ∈ s.held t' :=
    held_other elsewhere uncalled t'
  cases paced with
  | resting full outside unfinished =>
      exact .resting full (fun t' inside => outside t' ((held t').mp inside))
        (same.symm ▸ unfinished)
  | going full stretch t' inside => exact .going full stretch t' ((held t').mpr inside)
  | complete full stretch finished => exact .complete full stretch (same.symm ▸ finished)

/-- The rounds of each coroutine are cut at its suspensions, make up its path, and
the last one belongs to the Resume call in progress. -/
structure Recorded (trace : List (Move Thread Co Code Exc)) (s : State Thread Co Code Exc) :
    Prop where
  paced : ∀ c, Paced s c (Asymmetric.rounds c trace)
  whole : ∀ c, (Asymmetric.rounds c trace).flatMap Round.events = performed (.coroutine c) trace
  caller : ∀ t c rest, c :: rest <:+ s.calls t → ∃ early last,
    Asymmetric.rounds c trace = early ++ [last] ∧ last.thread = t ∧ last.caller = innermost t rest

theorem record_keeps {early : List (Round Thread Co Code Exc)} {last : Round Thread Co Code Exc}
    {body : Body Thread Co} (uncalled : event.resumes ≠ some c) :
    ∃ last', record c (early ++ [last]) ⟨t, body, event⟩ = early ++ [last'] ∧
      last'.thread = last.thread ∧ last'.caller = last.caller := by
  by_cases mine : body = .coroutine c
  · subst mine
    exact ⟨_, record_mine early last uncalled, rfl, rfl⟩
  · exact ⟨last, record_other _ uncalled mine, rfl, rfl⟩

theorem init_recorded (program : Program Thread Co Code Exc) : Recorded [] (init program) where
  paced _ := .resting (fun _ inside => absurd inside List.not_mem_nil)
    (fun _ => List.not_mem_nil) rfl
  whole _ := rfl
  caller _ c rest suffix := by
    cases List.suffix_nil.mp suffix

variable {trace : List (Move Thread Co Code Exc)}

theorem Recorded.paced_next (recorded : Recorded trace s) (sound : Sound s)
    (admitted : allowed s ⟨t, s.inControl t, event⟩)
    (moved : program.advance (s.position (s.inControl t)) event = some there) (c : Co) :
    Paced (s.after t event there) c
      (record c (Asymmetric.rounds c trace) ⟨t, s.inControl t, event⟩) := by
  by_cases called : event.resumes = some c
  · obtain ⟨rest, rfl, rfl⟩ := Program.advance_resumes moved called
    obtain ⟨ready, free⟩ := admitted.2 c called
    exact (recorded.paced c).called ready free _
  · by_cases mine : s.inControl t = .coroutine c
    · rw [mine]
      exact (recorded.paced c).mine sound mine called (Program.advance_stops moved)
        fun suspends => (Program.advance_suspends moved suspends).2
    · rw [record_other _ called mine]
      exact (recorded.paced c).other mine called

theorem Recorded.caller_next (recorded : Recorded trace s)
    (admitted : allowed s ⟨t, s.inControl t, event⟩)
    (moved : program.advance (s.position (s.inControl t)) event = some there) {t' : Thread}
    {rest : List Co} (suffix : c :: rest <:+ (s.after t event there).calls t') : ∃ early last,
      record c (Asymmetric.rounds c trace) ⟨t, s.inControl t, event⟩ = early ++ [last] ∧
        last.thread = t' ∧ last.caller = innermost t' rest := by
  have earlier (suffix : c :: rest <:+ s.calls t') : ∃ early last,
      record c (Asymmetric.rounds c trace) ⟨t, s.inControl t, event⟩ = early ++ [last] ∧
        last.thread = t' ∧ last.caller = innermost t' rest := by
    have uncalled : event.resumes ≠ some c := fun called =>
      (admitted.2 c called).2 t' (suffix.subset List.mem_cons_self)
    obtain ⟨early, last, same, thread, caller⟩ := recorded.caller t' c rest suffix
    obtain ⟨last', kept, thread', caller'⟩ : ∃ last',
        record c (early ++ [last]) ⟨t, s.inControl t, event⟩ = early ++ [last'] ∧
          last'.thread = last.thread ∧ last'.caller = last.caller := record_keeps uncalled
    exact ⟨early, last', same ▸ kept, thread'.trans thread, caller'.trans caller⟩
  by_cases same : t' = t
  · subst same
    have calls : (s.after t' event there).calls t' = event.callsAfter (s.held t') := by
      simp [State.after]
    rw [calls] at suffix
    cases resumes : event.resumes with
    | none =>
        rw [callsAfter_stays _ resumes] at suffix
        exact earlier (suffix.trans (s.held_part t'))
    | some callee =>
        obtain ⟨k, rfl, rfl⟩ := Program.advance_resumes moved resumes
        rcases List.suffix_cons_iff.mp suffix with whole | below
        · cases whole
          exact ⟨_, _, if_pos resumes, rfl, rfl⟩
        · exact earlier (below.trans (s.held_part t'))
  · have calls : (s.after t event there).calls t' = s.calls t' := by
      simp [State.after, same]
    exact earlier (calls ▸ suffix)

theorem Recorded.whole_next (recorded : Recorded trace s) (sound : Sound s)
    (admitted : allowed s ⟨t, s.inControl t, event⟩) (c : Co) :
    (record c (Asymmetric.rounds c trace) ⟨t, s.inControl t, event⟩).flatMap Round.events =
      performed (.coroutine c) (trace ++ [⟨t, s.inControl t, event⟩]) := by
  rw [performed_snoc]
  by_cases called : event.resumes = some c
  · have apart : s.inControl t ≠ .coroutine c := called_apart admitted called
    simp [record, called, apart, recorded.whole c]
  · by_cases mine : s.inControl t = .coroutine c
    · obtain ⟨early, last, same, _⟩ :=
        (recorded.paced c).ongoing sound (State.inControl_coroutine mine)
      have before := recorded.whole c
      rw [same] at before ⊢
      rw [mine, record_mine early last called, if_pos rfl, ← before]
      simp
    · simp [record_other _ called mine, mine, recorded.whole c]

variable [DecidableEq Exc] {after : State Thread Co Code Exc}

theorem Recorded.step (recorded : Recorded trace s) (sound : Sound s)
    {move : Move Thread Co Code Exc} (admitted : allowed s move)
    (taken : step program s move = some after) : Recorded (trace ++ [move]) after := by
  obtain ⟨t, body, event⟩ := move
  obtain ⟨rfl, _, there, moved, rfl⟩ := step_eq_some.mp taken
  refine ⟨fun c => ?_, fun c => ?_, fun t' c rest suffix => ?_⟩
  · rw [rounds_snoc]
    exact recorded.paced_next sound admitted moved c
  · rw [rounds_snoc]
    exact recorded.whole_next sound admitted c
  · rw [rounds_snoc]
    exact recorded.caller_next admitted moved suffix

theorem recorded (reached : Reaches (step program) allowed (init program) trace s) :
    Recorded trace s := by
  induction reached with
  | start => exact init_recorded program
  | next move reached admitted taken ih => exact ih.step (sound reached) admitted taken

end Pace

section Counting

theorem Stretch.count {events : List (Event Co Code Exc)} (stretch : Stretch events) :
    events.countP Event.suspends = 0 :=
  List.countP_eq_zero.mpr fun event inside suspends => by
    rw [stretch event inside] at suspends
    cases suspends

theorem Suspended.count {events : List (Event Co Code Exc)} (suspended : Suspended events) :
    events.countP Event.suspends = 1 := by
  obtain ⟨work, rest, rfl, stretch⟩ := suspended
  simp [List.countP_append, stretch.count, Event.suspends]

theorem suspended_count {rounds : List (Round Thread Co Code Exc)}
    (full : ∀ round ∈ rounds, Suspended round.events) :
    (rounds.flatMap Round.events).countP Event.suspends = rounds.length := by
  induction rounds with
  | nil => rfl
  | cons round rest ih =>
      rw [List.flatMap_cons, List.countP_append, (full round List.mem_cons_self).count,
        ih fun other inside => full other (List.mem_cons_of_mem round inside), List.length_cons]
      omega

theorem open_count {rounds : List (Round Thread Co Code Exc)} {last : Round Thread Co Code Exc}
    (full : ∀ round ∈ rounds, Suspended round.events) (stretch : Stretch last.events) :
    (rounds ++ [last]).length =
      ((rounds ++ [last]).flatMap Round.events).countP Event.suspends + 1 := by
  simp [List.countP_append, suspended_count full, stretch.count]

theorem Suspended.leads [DecidableEq Co] {program : Program Thread Co Code Exc}
    {events : List (Event Co Code Exc)} {before after : Position Co Code Exc}
    (suspended : Suspended events) (ran : run program.advance before events = some after) :
    ∃ k, after = .code k := by
  obtain ⟨work, rest, rfl, _⟩ := suspended
  rw [run_append] at ran
  obtain ⟨there, _, last⟩ := Option.bind_eq_some_iff.mp ran
  obtain ⟨final, moved, same⟩ := Option.bind_eq_some_iff.mp last
  obtain ⟨k, _, _, rfl⟩ := Program.advance_act.mp moved
  cases same
  exact ⟨rest, rfl⟩

theorem suspended_leads [DecidableEq Co] {program : Program Thread Co Code Exc}
    {rounds : List (Round Thread Co Code Exc)} {k : Code} {after : Position Co Code Exc}
    (full : ∀ round ∈ rounds, Suspended round.events)
    (ran : run program.advance (.code k) (rounds.flatMap Round.events) = some after) :
    ∃ k', after = .code k' := by
  cases rounds using List.reverseRecOn with
  | nil =>
      cases ran
      exact ⟨k, rfl⟩
  | append_singleton rounds last =>
      rw [List.flatMap_append, run_append] at ran
      obtain ⟨there, _, rest⟩ := Option.bind_eq_some_iff.mp ran
      rw [List.flatMap_singleton] at rest
      exact (full last (by simp)).leads rest

end Counting

section Results
variable [DecidableEq Thread] [DecidableEq Co] [DecidableEq Exc]
variable {program : Program Thread Co Code Exc} {s : State Thread Co Code Exc}
  {trace : List (Move Thread Co Code Exc)} {t : Thread} {c : Co}

/-- While the body is not over, and nobody is inside a Resume of it, it has suspended
as often as it was resumed; at its end it was resumed once more. -/
theorem resumes_counted (reached : Reaches (step program) allowed (init program) trace s) :
    ((s.position (.coroutine c)).isOver = true →
      (rounds c trace).length = (performed (.coroutine c) trace).countP Event.suspends + 1) ∧
    ((s.position (.coroutine c)).isOver = false → (∀ t, c ∉ s.calls t) →
      (rounds c trace).length = (performed (.coroutine c) trace).countP Event.suspends) := by
  have recorded := recorded reached
  rw [← recorded.whole c]
  have paced := recorded.paced c
  generalize rounds c trace = list at paced
  constructor
  · intro ends
    cases paced with
    | resting _ _ unfinished =>
        rw [ends] at unfinished
        cases unfinished
    | going _ _ t inside =>
        rw [(sound reached).held_unfinished inside] at ends
        cases ends
    | complete full stretch _ => exact open_count full stretch
  · intro unfinished idle
    cases paced with
    | resting full _ _ => exact (suspended_count full).symm
    | going _ _ t inside => exact absurd ((s.held_part t).subset inside) (idle t)
    | complete _ _ finished =>
        rw [unfinished] at finished
        cases finished

theorem round_over (reached : Reaches (step program) allowed (init program) trace s)
    {below : List Co} {thrown : Option Exc} (calls : s.calls t = c :: below)
    (ended : s.ended t = some thrown) :
    ∃ early last before, rounds c trace = early ++ [last] ∧ last.thread = t ∧
      last.caller = innermost t below ∧
      run program.advance (.code (program.payload c)) (early.flatMap Round.events) =
        some (.code before) ∧
      run program.advance (.code before) last.events = some (s.position (.coroutine c)) ∧
      ((s.position (.coroutine c)).isOver = false → Suspended last.events) := by
  have sound := sound reached
  have recorded := recorded reached
  obtain ⟨early, last, same, thread, caller⟩ :=
    recorded.caller t c below (calls ▸ List.suffix_refl _)
  have held : s.held t = below := by simp [State.held, ended, calls]
  have outside (t' : Thread) : c ∉ s.held t' := by
    intro inside
    have here : t' = t := by
      refine sound.apart _ _ _ ((s.held_part t').subset inside) ?_
      rw [calls]
      exact List.mem_cons_self
    subst here
    rw [held] at inside
    have nodup := sound.nodup t'
    rw [calls] at nodup
    exact (List.nodup_cons.mp nodup).1 inside
  -- The last round is either full, or the one in which the body came to its end.
  have shape : (∀ round ∈ early, Suspended round.events) ∧
      ((s.position (.coroutine c)).isOver = false → Suspended last.events) := by
    have paced := recorded.paced c
    generalize whole : rounds c trace = list at paced
    cases paced with
    | resting full _ _ =>
        rw [whole.symm.trans same] at full
        exact ⟨fun round inside => full round (List.mem_append_left _ inside),
          fun _ => full last (by simp)⟩
    | going _ _ t' inside => exact absurd inside (outside t')
    | complete full _ finished =>
        obtain ⟨rfl, same'⟩ := List.append_inj' (whole.symm.trans same) rfl
        refine ⟨full, fun unfinished => ?_⟩
        rw [finished] at unfinished
        cases unfinished
  have path := performed_path reached (.coroutine c)
  rw [← recorded.whole c, same, List.flatMap_append, run_append] at path
  obtain ⟨there, first, rest⟩ := Option.bind_eq_some_iff.mp path
  obtain ⟨before, rfl⟩ := suspended_leads shape.1 first
  rw [List.flatMap_singleton] at rest
  exact ⟨early, last, before, same, thread, caller, first, rest, shape.2⟩

end Results

end ConcurrencyCourse.Asymmetric
