import ConcurrencyCourse.NestedPlaces

/-!
The steps of nested fibers. As long as Yield is called by the fibers themselves, a step
takes every worker from one place in the outline to the next.
-/

namespace ConcurrencyCourse.NestedFibers

open Interleaving Asymmetric
open Fibers (Code Task Life Runtime Statement Good Inside Here)

variable {Worker Fiber Inner K Exc : Type*}

section Places
variable {s : State Worker Fiber Inner K Exc} {a : Whole Worker Fiber Inner K Exc}
  {b : Outline Worker Fiber} {w : Worker}

theorem code_eq_some {k : Code Fiber K} (here : s.code w = some k) :
    s.coroutines.running w = ⟨s.stack w, .code k⟩ := by
  unfold State.code at here
  unfold State.stack
  generalize s.coroutines.running w = context at here
  obtain ⟨stack, control⟩ := context
  cases control with
  | code k' =>
      cases here
      rfl
  | _ => cases here

theorem move_free (e : Event (Fiber ⊕ Inner) (Code Fiber K) Exc) (suspends : e.suspends = false)
    (resumes : e.resumes = none) (body : Body Worker (Fiber ⊕ Inner)) :
    StackfulCoroutine.allowed s.coroutines (.event ⟨w, body, e⟩) :=
  ⟨fun yes => absurd (suspends.symm.trans yes) (by simp),
    fun _ called => absurd (resumes.symm.trans called) (by simp)⟩

variable [DecidableEq Fiber] [DecidableEq K]

/-- The coroutines are asymmetric coroutines, and every fiber has its place in their
outline. -/
structure Invariant (language : Language Inner K Exc) (s : State Worker Fiber Inner K Exc)
    (a : Whole Worker Fiber Inner K Exc) (b : Outline Worker Fiber) : Prop where
  related : StackfulCoroutine.Related (program language s.payload) s.coroutines a
  good : Good s.runtime b
  outlines : Outlines a b

def Sound (language : Language Inner K Exc) (s : State Worker Fiber Inner K Exc) : Prop :=
  ∃ a b, Invariant language s a b

variable {language : Language Inner K Exc}

theorem Invariant.code_here (inv : Invariant language s a b) {k : Code Fiber K}
    (here : s.code w = some k) :
    StackfulCoroutine.Running s.coroutines a w (s.stack w) ∧ a.ended w = none ∧
      b.ended w = none ∧ a.position (a.inControl w) = .code k ∧
      Here s.runtime b w (outline k) := by
  obtain ⟨running, going, point⟩ := inv.related.at_code (code_eq_some here)
  rw [← running.inControl] at point
  have placed (unended : b.ended w = none)
      (there : b.position (b.inControl w) = .code (outline k)) :
      Here s.runtime b w (outline k) := by
    cases inv.good.placed w with
    | code _ there' here' =>
        cases there.symm.trans there'
        exact here'
    | back ended _ _ =>
        rw [unended] at ended
        cases ended
  cases inv.outlines.seen w with
  | own calls outlined _ unended here' there =>
      have same := point
      rw [control_held ((held_going_calls going).trans calls)] at same
      cases same.symm.trans here'
      refine ⟨running, going, unended, point, placed unended ?_⟩
      rw [Fibers.control_thread outlined]
      exact there
  | inside dispatches calls _ unended here' there _ =>
      have same := point
      rw [control_held ((held_going_calls going).trans calls)] at same
      cases same.symm.trans here'
      refine ⟨running, going, unended, point, placed unended ?_⟩
      simpa [Asymmetric.State.inControl, Asymmetric.State.held, unended, dispatches.calls,
        innermost] using there
  | between _ _ ended _ _ =>
      rw [going] at ended
      cases ended
  | back _ _ ended _ =>
      rw [going] at ended
      cases ended

theorem Invariant.busy (inv : Invariant language s a b) {k : K}
    (here : s.code w = some (.routine k)) :
    ∃ f prev inners, Busy a b w f prev inners ∧ s.runtime.currentFiber w = some f := by
  obtain ⟨_, going, _, point, f, inside, _⟩ := inv.code_here here
  obtain ⟨prev, inners, _, dispatches, calls, unended, here', there, _⟩ :=
    (inv.outlines.seen w).going_inside going inside.calls
  have held := (held_going_calls going).trans calls
  rw [control_held held] at point
  cases point.symm.trans here'
  exact ⟨f, prev, inners, ⟨dispatches, held, unended, there⟩, inside.current⟩

theorem Invariant.flat (inv : Invariant language s a b) {rest : K}
    (here : s.code w = some (.suspend rest)) :
    ∃ f prev, Dispatches a b w f prev ∧ a.calls w = [.inl f] ∧ Inside s.runtime b w f := by
  obtain ⟨_, going, _, point, f, inside, _⟩ := inv.code_here here
  obtain ⟨prev, inners, _, dispatches, calls, _, here', _, flat⟩ :=
    (inv.outlines.seen w).going_inside going inside.calls
  rw [control_held ((held_going_calls going).trans calls)] at point
  cases point.symm.trans here'
  cases flat _ rfl
  exact ⟨f, prev, dispatches, calls, inside⟩

end Places

section Steps
variable [DecidableEq Worker] [DecidableEq Fiber] [DecidableEq Inner] [DecidableEq K]
variable {language : Language Inner K Exc} {s s' : State Worker Fiber Inner K Exc}
  {a : Whole Worker Fiber Inner K Exc} {b : Outline Worker Fiber} {w : Worker}
  {after : Runtime Worker Fiber}

theorem Invariant.constructs (inv : Invariant language s a b) {f : Fiber}
    {builder : Option Worker} (built : s.runtime.life f = .built builder) (routine : K) :
    Sound language (s.construct f routine) := by
  obtain ⟨_, idle⟩ := inv.good.unscheduled (g := f) (by simp [built])
  have alive : s.runtime.life f ≠ .destroyed := by simp [built]
  have free (w' : Worker) : .inl f ∉ a.calls w' := fun called =>
    idle w' (inv.good.called ((inv.outlines.seen w').called.mp called)).executes
  have point : (program language (s.construct f routine).payload :
      Program Worker (Fiber ⊕ Inner) _ _).payload (.inl f) = .routine routine := by
    simp [program, State.construct]
  have others : ∀ d, d ≠ .inl f →
      (program language (s.construct f routine).payload : Program Worker _ _ _).payload d =
        (program language s.payload : Program Worker _ _ _).payload d := by
    intro d other
    cases d with
    | inl g =>
        have different : g ≠ f := fun eq => other (congrArg Sum.inl eq)
        simp [program, State.construct, different]
    | inr c => rfl
  have still := inv.related.constructs free others
  rw [point] at still
  exact ⟨_, _, still, inv.good.constructs alive idle (), inv.outlines.constructs free routine⟩

theorem Invariant.raise (inv : Invariant language s a b) {f : Fiber} {prev : Option Fiber}
    {inners : List Inner} (busy : Busy a b w f prev inners) (control : s.stack w = a.inControl w)
    {event : Event (Fiber ⊕ Inner) (Code Fiber K) Exc} (stays : event.resumes = none)
    (goes : event.suspends = false) {k : K} {e : Exc}
    (contained : s.contained language w k (some e) = true) :
    Outlines (a.after w event
      ((program language s.payload : Program Worker _ _ _).raise (.routine k) e)) b := by
  have sound := inv.related.sound
  cases caught : language.handler k e with
  | some k' =>
      have raised : (program language s.payload : Program Worker (Fiber ⊕ Inner) _ _).raise
          (.routine k) e = .code (.routine k') := by
        simp [Program.raise, program, caught]
      rw [raised]
      exact inv.outlines.stay sound inv.good busy stays goes k'
  | none =>
      have raised : (program language s.payload : Program Worker (Fiber ⊕ Inner) _ _).raise
          (.routine k) e = .threw e := by
        simp [Program.raise, program, caught]
      rw [raised]
      have stack := control.trans (control_held busy.held)
      cases inners with
      | nil =>
          have own : s.stack w = .coroutine (.inl f) := stack
          simp [State.contained, own, caught] at contained
      | cons c inners =>
          exact inv.outlines.stop sound inv.good busy stays (by simp [Position.isOver])
            (.inr rfl)

variable [DecidableEq Exc]

theorem Invariant.event (inv : Invariant language s a b)
    {e : Event (Fiber ⊕ Inner) (Code Fiber K) Exc}
    (admitted : StackfulCoroutine.allowed s.coroutines (.event ⟨w, s.stack w, e⟩))
    (taken : s.event language w e after = some s') :
    ∃ there, s'.runtime = after ∧ e.due = a.ended w ∧
      (program language s.payload : Program Worker _ _ _).advance (a.position (a.inControl w)) e =
        some there ∧
      StackfulCoroutine.Related (program language s'.payload) s'.coroutines
        (a.after w e there) := by
  obtain ⟨coroutines, moved, rfl⟩ := Option.map_eq_some_iff.mp taken
  obtain ⟨a', _, stepped, still⟩ := inv.related.event admitted moved
  obtain ⟨_, due, there, advanced, rfl⟩ := step_eq_some.mp stepped
  exact ⟨there, rfl, due, advanced, still⟩

theorem Invariant.goto (inv : Invariant language s a b) {k k' : Code Fiber K}
    (here : s.code w = some k) (taken : s.goto language w k' after = some s')
    (flat : ∀ rest, k' = .suspend rest → ∀ f inners, a.calls w = chain f inners → inners = [])
    (good : Good after (b.after w (.act (.segment (outline k'))) (.code (outline k')))) :
    Sound language s' := by
  obtain ⟨_, going, _, _⟩ := inv.code_here here
  obtain ⟨there, effect, _, advanced, still⟩ := inv.event (move_free _ rfl rfl _) taken
  obtain ⟨_, _, _, rfl⟩ := Program.advance_act.mp advanced
  exact ⟨_, _, still, effect ▸ good, inv.outlines.goto inv.related.sound inv.good going flat⟩

theorem Invariant.acts (inv : Invariant language s a b) {k : Code Fiber K}
    (here : s.code w = some k) {action : Asymmetric.Action (Fiber ⊕ Inner) (Code Fiber K) Exc}
    (admitted : StackfulCoroutine.allowed s.coroutines (.event ⟨w, s.stack w, .act action⟩))
    (taken : s.event language w (.act action) s.runtime = some s') {b' : Outline Worker Fiber}
    {there : Position (Fiber ⊕ Inner) (Code Fiber K) Exc}
    (leads : (program language s.payload : Program Worker _ _ _).afterAct k action = there)
    (good : Good s.runtime b') (outlines : Outlines (a.after w (.act action) there) b') :
    Sound language s' := by
  obtain ⟨_, _, _, point, _⟩ := inv.code_here here
  obtain ⟨there', effect, _, advanced, still⟩ := inv.event admitted taken
  obtain ⟨k', point', _, rfl⟩ := Program.advance_act.mp advanced
  cases point.symm.trans point'
  rw [leads] at still
  exact ⟨_, _, still, effect ▸ good, outlines⟩

-- One lemma for each statement: its guard, its place, its effect on the outline.

theorem Invariant.resume (inv : Invariant language s a b) {f : Fiber} {prev : Option Fiber}
    (here : s.code w = some (.resume f prev))
    (taken : s.event language w (.act (.resume (.inl f) (.restore f prev))) s.runtime = some s') :
    Sound language s' := by
  obtain ⟨running, going, unended, point, place⟩ := inv.code_here here
  have ⟨_, outlined, _, executes, _, ready⟩ := place
  have free : ∀ w', f ∉ b.calls w' := inv.good.outside executes outlined
  have free' (w' : Worker) : .inl f ∉ a.calls w' := fun called =>
    free w' ((inv.outlines.seen w').called.mp called)
  have calls : a.calls w = [] := (inv.outlines.seen w).alone.mpr outlined
  have unfinished : (s.coroutines.coroutine (.inl f)).isCompleted = false := by
    rw [(inv.related.idle _ free').completed]
    rcases inv.outlines.rests (.inl f) fun w' held => free' w' ((a.held_part w').subset held) with
      ⟨_, here', _⟩ | ⟨_, finished⟩
    · rw [here']
      rfl
    · obtain ⟨_, here'⟩ := ready
      rw [finished] at here'
      cases here'
  have admitted : StackfulCoroutine.allowed s.coroutines
      (.event ⟨w, s.stack w, .act (.resume (.inl f) (.restore f prev))⟩) := by
    refine ⟨fun suspends => absurd suspends (by simp [Event.suspends]), fun callee called => ?_⟩
    cases called
    rw [inv.related.calls]
    exact ⟨unfinished, free'⟩
  exact inv.acts here admitted taken rfl (inv.good.resume unended place)
    (inv.outlines.resume inv.related.sound inv.good calls going unended free ready)

theorem Invariant.resumed (inv : Invariant language s a b) {f : Fiber}
    (taken : s.event language w (.resumed (.inl f) none) s.runtime = some s') :
    Sound language s' := by
  obtain ⟨there, effect, due, advanced, still⟩ := inv.event (move_free _ rfl rfl _) taken
  obtain ⟨rest, waits, rfl⟩ := Program.advance_resumed.mp advanced
  have linked := inv.related.sound.linked w
  cases inv.outlines.seen w with
  | own _ _ going _ _ _ =>
      rw [going] at due
      cases due
  | inside _ _ going _ _ _ _ =>
      rw [going] at due
      cases due
  | @between f' prev c inners thrown dispatches calls ended _ _ =>
      -- The innermost Resume is that of a SimpleCoroutine.
      have held : a.held w = chain f' inners := by
        simp [Asymmetric.State.held, ended, calls]
      rw [calls] at linked
      obtain ⟨_, other⟩ := linked (.inr c) _ (List.suffix_refl _)
      rw [control_held held, other] at waits
      cases waits
  | @back f' prev dispatches calls ended ended' =>
      have control : a.inControl w = .thread w := by
        simp [Asymmetric.State.inControl, Asymmetric.State.held, ended, calls, innermost]
      rw [control, dispatches.waits] at waits
      cases waits
      cases inv.good.placed w with
      | code unended _ _ =>
          rw [unended] at ended'
          cases ended'
      | back _ inside result =>
          cases inside.calls.symm.trans dispatches.calls
          cases inside.waits.symm.trans dispatches.outlined
          exact ⟨_, _, still, effect ▸ inv.good.resumed ended' inside result,
            inv.outlines.resumed inv.related.sound inv.good calls ended dispatches.calls ended'⟩

omit [DecidableEq Worker] [DecidableEq Inner] [DecidableEq Exc] in
theorem Invariant.reports (inv : Invariant language s a b) {f : Fiber}
    (here : s.code w = some (.check f)) :
    (s.coroutines.coroutine (.inl f)).isCompleted = (b.position (.coroutine f)).isOver := by
  obtain ⟨_, _, _, _, outlined, _, executes, _⟩ := inv.code_here here
  have free (w' : Worker) : .inl f ∉ a.calls w' := fun called =>
    inv.good.outside executes outlined w' ((inv.outlines.seen w').called.mp called)
  rw [(inv.related.idle _ free).completed]
  rcases inv.outlines.rests (.inl f) fun w' held => free w' ((a.held_part w').subset held) with
    ⟨_, point, there⟩ | ⟨point, there⟩
  · rw [point, there]
    rfl
  · rw [point, there]
    rfl

theorem Invariant.spawn (inv : Invariant language s a b) {f : Fiber} {k routine rest : K}
    {next : State Worker Fiber Inner K Exc} (here : s.code w = some (.routine k))
    (unborn : s.runtime.life f = .unborn)
    (moved : s.goto language w (.schedule f rest)
      ((s.runtime.acquireStack w f).setLife f (.built (some w))) = some next) :
    Sound language (next.construct f routine) := by
  obtain ⟨_, _, unended, _, place⟩ := inv.code_here here
  have born := Fibers.born_acquired s.runtime w f (some w)
  obtain ⟨_, _, still⟩ := inv.goto here moved (by simp)
    (inv.good.spawn unended place unborn born)
  have built : next.runtime.life f = .built (some w) := by
    obtain ⟨_, _, rfl⟩ := Option.map_eq_some_iff.mp moved
    exact (congrFun born.life f).trans (Function.update_self ..)
  exact still.constructs built routine

theorem Invariant.yield (inv : Invariant language s a b) {f : Fiber} {k rest : K}
    (here : s.code w = some (.routine k))
    (own : s.coroutines.current w = (s.runtime.currentFiber w).map .inl)
    (current : s.runtime.currentFiber w = some f)
    (moved : s.goto language w (.suspend rest) (s.runtime.submit f (some w)) = some s') :
    Sound language s' := by
  obtain ⟨running, going, unended, _, place⟩ := inv.code_here here
  rw [running.current, current, held_going_calls going] at own
  have flat (f' : Fiber) (inners : List Inner) (calls : a.calls w = chain f' inners) :
      inners = [] := by
    rw [calls] at own
    cases inners with
    | nil => rfl
    | cons c inners => cases own
  exact inv.goto here moved (fun _ _ => flat)
    (inv.good.yield unended place current)

theorem Invariant.suspend (inv : Invariant language s a b) {rest : K}
    (here : s.code w = some (.suspend rest))
    (taken : s.event language w (.act (.suspend (.routine rest))) s.runtime = some s') :
    Sound language s' := by
  obtain ⟨running, going, unended, _, place⟩ := inv.code_here here
  obtain ⟨f, _, dispatches, calls, _⟩ := inv.flat here
  have control : a.inControl w = .coroutine (.inl f) :=
    control_held ((held_going_calls going).trans calls)
  have admitted : StackfulCoroutine.allowed s.coroutines
      (.event ⟨w, s.stack w, .act (.suspend (.routine rest))⟩) := by
    refine ⟨fun _ t => ?_, fun callee called => absurd called (by simp [Event.resumes])⟩
    change s.stack w ≠ .thread t
    rw [← running.inControl, control]
    simp
  exact inv.acts here admitted taken rfl (inv.good.suspend unended place)
    (inv.outlines.back inv.related.sound inv.good dispatches calls going unended rfl rfl rfl rfl
      rfl rfl (.inl ⟨rest, rfl, rfl⟩))

theorem Invariant.finish (inv : Invariant language s a b) {f : Fiber} {k : K}
    (here : s.code w = some (.routine k)) (mine : s.stack w = .coroutine (.inl f))
    (moved : s.event language w (.act .finish) s.runtime = some s') : Sound language s' := by
  obtain ⟨running, going, unended, _, place⟩ := inv.code_here here
  obtain ⟨f', prev, inners, busy, _⟩ := inv.busy here
  have control := control_held busy.held
  rw [running.inControl, mine] at control
  cases inners with
  | cons c inners => cases control
  | nil =>
      have calls := (held_going_calls going).symm.trans busy.held
      exact inv.acts here (move_free _ rfl rfl _) moved rfl (inv.good.finish unended place)
        (inv.outlines.back inv.related.sound inv.good busy.dispatches calls going unended rfl
          rfl rfl rfl rfl rfl (.inr ⟨rfl, rfl⟩))

theorem Invariant.executes (inv : Invariant language s a b) {statement : Statement Fiber K}
    {k : Code Fiber K} (here : s.code w = some k) (own : AtDepthZero s (.statement w statement))
    (executes : Executes language s w statement k s') : Sound language s' := by
  obtain ⟨_, _, unended, _, place⟩ := inv.code_here here
  cases executes with
  | take pending moved =>
      exact inv.goto here moved (by simp) (inv.good.take unended place pending)
  | enter moved => exact inv.goto here moved (by simp) (inv.good.enter unended place)
  | resume moved => exact inv.resume here moved
  | restore moved => exact inv.goto here moved (by simp) (inv.good.restore unended place)
  | completed reports moved =>
      have ends := (inv.reports here).symm.trans reports
      exact inv.goto here moved (by simp) (inv.good.checkCompleted unended place ends)
  | yielded silent moved =>
      have unfinished := (inv.reports here).symm.trans (Bool.not_eq_true _ ▸ silent)
      exact inv.goto here moved (by simp) (inv.good.checkYielded unended place unfinished)
  | @release _ stack _ _ moved =>
      exact inv.goto here moved (by simp) (inv.good.release unended place stack)
  | delete moved => exact inv.goto here moved (by simp) (inv.good.delete unended place)
  | leave moved => exact inv.goto here moved (by simp) (inv.good.leave unended place)
  | segment _ moved => exact inv.goto here moved (by simp) (inv.good.segment unended place)
  | spawn unborn _ moved => exact inv.spawn here unborn moved
  | schedule moved => exact inv.goto here moved (by simp) (inv.good.schedule unended place)
  | yield _ current moved => exact inv.yield here own current moved
  | suspend moved => exact inv.suspend here moved
  | finish mine moved => exact inv.finish here mine moved

theorem Invariant.nested (inv : Invariant language s a b) {nested : Nested Inner K Exc} {k : K}
    (here : s.code w = some (.routine k)) (proper : Proper s (.nested w nested))
    (taken : stepNested language s w k nested = some s') : Sound language s' := by
  obtain ⟨running, going, _, _, _⟩ := inv.code_here here
  obtain ⟨f, prev, inners, busy, _⟩ := inv.busy here
  have sound := inv.related.sound
  have control := control_held busy.held
  rw [running.inControl] at control
  -- A SimpleCoroutine on the worker's stack is the innermost one.
  have simple {c : Inner} (own : s.stack w = .coroutine (.inr c)) :
      ∃ deeper, inners = c :: deeper := by
    rw [own] at control
    cases inners with
    | nil => cases control
    | cons d deeper =>
        cases control
        exact ⟨deeper, rfl⟩
  cases nested with
  | resume c rest =>
      obtain ⟨unfinished, free⟩ := proper
      have free' := free
      rw [inv.related.calls] at free'
      have ready : (a.position (.coroutine (.inr c))).isOver = false :=
        (inv.related.idle _ free').completed ▸ unfinished
      have admitted : StackfulCoroutine.allowed s.coroutines
          (.event ⟨w, s.stack w, .act (.resume (.inr c) (.routine rest))⟩) := by
        refine ⟨fun suspends => absurd suspends (by simp [Event.suspends]), fun d called => ?_⟩
        cases called
        exact ⟨unfinished, free⟩
      exact inv.acts here admitted taken rfl inv.good
        (inv.outlines.call sound inv.good busy ready free' (.routine rest))
  | resumed c thrown => cases taken
  | suspend rest =>
      obtain ⟨c, own⟩ := proper
      obtain ⟨deeper, rfl⟩ := simple own
      have admitted : StackfulCoroutine.allowed s.coroutines
          (.event ⟨w, s.stack w, .act (.suspend (.routine rest))⟩) := by
        refine ⟨fun _ t => ?_, fun d called => absurd called (by simp [Event.resumes])⟩
        change s.stack w ≠ .thread t
        rw [own]
        simp
      exact inv.acts here admitted taken rfl inv.good
        (inv.outlines.stop sound inv.good busy rfl rfl (.inl ⟨rest, rfl⟩))
  | throw e =>
      obtain ⟨contained, taken⟩ := Option.ite_none_right_eq_some.mp taken
      exact inv.acts here (move_free _ rfl rfl _) taken rfl inv.good
        (inv.raise busy running.inControl.symm rfl rfl contained)
  | finish c =>
      obtain ⟨own, taken⟩ := Option.ite_none_right_eq_some.mp taken
      obtain ⟨deeper, rfl⟩ := simple own
      exact inv.acts here (move_free _ rfl rfl _) taken rfl inv.good
        (inv.outlines.stop sound inv.good busy rfl rfl (.inr rfl))

theorem Invariant.returned (inv : Invariant language s a b) {c : Inner} {thrown : Option Exc}
    {stack : Body Worker (Fiber ⊕ Inner)} {callee : Fiber ⊕ Inner} {rest : K}
    (here : s.coroutines.running w = ⟨stack, .checking callee (.routine rest)⟩)
    (contained : s.contained language w rest thrown = true)
    (taken : s.event language w (.resumed (.inr c) thrown) s.runtime = some s') :
    Sound language s' := by
  obtain ⟨there, effect, due, advanced, still⟩ := inv.event (move_free _ rfl rfl _) taken
  obtain ⟨running, _, _, awaits, _⟩ := inv.related.at_checking here
  obtain ⟨k, waits, rfl⟩ := Program.advance_resumed.mp advanced
  rw [running.inControl, awaits] at waits
  cases waits
  have control : s.stack w = a.inControl w := by
    rw [running.inControl, State.stack, here]
  have sound := inv.related.sound
  cases inv.outlines.seen w with
  | own _ _ going _ _ _ =>
      rw [going] at due
      cases due
  | inside _ _ going _ _ _ _ =>
      rw [going] at due
      cases due
  | @between f prev d inners thrown' dispatches calls ended unended there =>
      have held : a.held w = chain f inners := by simp [Asymmetric.State.held, ended, calls]
      have busy : Busy a b w f prev inners := ⟨dispatches, held, unended, there⟩
      refine ⟨_, b, still, effect ▸ inv.good, ?_⟩
      cases thrown with
      | none => exact inv.outlines.stay sound inv.good busy rfl rfl rest
      | some e => exact inv.raise busy control rfl rfl contained
  | @back f prev dispatches calls ended _ =>
      have held : a.held w = [] := by simp [Asymmetric.State.held, ended, calls]
      rw [← running.inControl, control_held held, innermost, dispatches.waits] at awaits
      cases awaits

theorem Invariant.step (inv : Invariant language s a b) {label : Label Worker Fiber Inner K Exc}
    (proper : Proper s label) (own : AtDepthZero s label)
    (taken : step language s label = some s') : Sound language s' := by
  cases label with
  | internal w =>
      obtain ⟨coroutines, moved, rfl⟩ := Option.map_eq_some_iff.mp taken
      exact ⟨a, b, inv.related.internal_kept moved, inv.good, inv.outlines⟩
  | statement w executed =>
      rcases statement_executes taken with ⟨f, rfl, moved⟩ | ⟨k, here, executes⟩
      · exact inv.resumed moved
      · exact inv.executes here own executes
  | nested w nested =>
      cases nested with
      | resumed c thrown =>
          simp only [NestedFibers.step] at taken
          split at taken
          · rename_i callee rest here
            split at taken
            · rename_i contained
              generalize context : s.coroutines.running w = running at here
              obtain ⟨stack, control⟩ := running
              cases here
              exact inv.returned context contained taken
            · cases taken
          · cases taken
      | _ =>
          simp only [NestedFibers.step] at taken
          split at taken
          · rename_i k here
            exact inv.nested here proper taken
          · cases taken
  | outsideSpawn f routine =>
      simp only [NestedFibers.step] at taken
      split at taken
      · rename_i unborn
        cases taken
        have born := Fibers.born_allocated s.runtime f (none : Option Worker)
        have good := inv.good.born unborn born
          (fun w => (inv.good.placed w).kept ⟨inv.good.spared_born unborn born w, rfl, rfl, rfl,
            fun _ _ => rfl⟩) fun _ _ => rfl
        have allocated : Invariant language { s with
            runtime := (s.runtime.allocateStack f).setLife f (.built none) } a b :=
          ⟨inv.related, good, inv.outlines⟩
        have built : ((s.runtime.allocateStack f).setLife f (.built none)).life f =
            .built none := by
          rw [born.life, Function.update_self]
        exact allocated.constructs built routine
      · cases taken
  | outsideSubmit f =>
      simp only [NestedFibers.step] at taken
      split at taken
      · rename_i built
        cases taken
        have good := inv.good.scheduled built
          (fun w => (inv.good.placed w).kept ⟨inv.good.spared_scheduled built (by simp), rfl, rfl,
            rfl, fun _ _ => rfl⟩) fun _ _ => rfl
        exact ⟨a, b, inv.related, good, inv.outlines⟩
      · cases taken

theorem reaches_sound {payload : Fiber → K} {trace : List (Label Worker Fiber Inner K Exc)}
    (reached : Reaches (step language) (fun s label => Proper s label ∧ AtDepthZero s label)
      (init language payload) trace s) : Sound language s := by
  refine reached.invariant ?_ ?_
  · exact ⟨_, _, StackfulCoroutine.init_related _,
      (Fibers.init_invariant (fun _ _ => true) (fun _ => ())).good, init_outlines language payload⟩
  · rintro s label s' ⟨a, b, inv⟩ ⟨proper, own⟩ taken
    exact inv.step proper own taken

end Steps

end ConcurrencyCourse.NestedFibers
