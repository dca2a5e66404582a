import ConcurrencyCourse.NestedFibers

/-!
The outline of nested fibers: what is left of the coroutines when a fiber and the
SimpleCoroutines nested in it are seen as one routine. An event of the worker loop, of
Dispatch or of the fiber itself is an event of the outline, and one of a SimpleCoroutine
leaves the outline as it is, so that a place in the outline says where a fiber is.
-/

namespace ConcurrencyCourse.NestedFibers

open Interleaving Asymmetric
open Fibers (Code Task Life Runtime Statement Good Inside)

variable {Worker Fiber Inner K Exc : Type*}

abbrev Whole (Worker Fiber Inner K Exc : Type*) :=
  Asymmetric.State Worker (Fiber ⊕ Inner) (Code Fiber K) Exc

abbrev Outline (Worker Fiber : Type*) := Fibers.Abstract Worker Fiber Unit

/-- The code of the outline: where in the routine a fiber stands is left out. -/
def outline : Code Fiber K → Code Fiber Unit
  | .idle => .idle
  | .returned => .returned
  | .dispatch f => .dispatch f
  | .resume f prev => .resume f prev
  | .restore f prev => .restore f prev
  | .check f => .check f
  | .release f => .release f
  | .delete f => .delete f
  | .routine _ => .routine ()
  | .schedule f _ => .schedule f ()
  | .suspend _ => .suspend ()

def chain (f : Fiber) (inners : List Inner) : List (Fiber ⊕ Inner) :=
  inners.map .inr ++ [.inl f]

theorem mem_chain {f g : Fiber} {inners : List Inner} : .inl g ∈ chain f inners ↔ g = f := by
  simp [chain]

structure Dispatches (a : Whole Worker Fiber Inner K Exc) (b : Outline Worker Fiber) (w : Worker)
    (f : Fiber) (prev : Option Fiber) : Prop where
  waits : a.position (.thread w) = .waiting (.inl f) (.restore f prev)
  outlined : b.position (.thread w) = .waiting f (.restore f prev)
  calls : b.calls w = [f]

/-- One worker in the whole and in the outline. A Yield of the fiber itself is the only
one there is, so that no SimpleCoroutine is in progress where it suspends. -/
inductive Seen (a : Whole Worker Fiber Inner K Exc) (b : Outline Worker Fiber) (w : Worker) :
    Prop where
  | own {k : Code Fiber K} (calls : a.calls w = []) (outlined : b.calls w = [])
      (going : a.ended w = none) (unended : b.ended w = none)
      (here : a.position (.thread w) = .code k)
      (there : b.position (.thread w) = .code (outline k)) : Seen a b w
  | inside {f : Fiber} {prev : Option Fiber} {inners : List Inner} {k : Code Fiber K}
      (dispatches : Dispatches a b w f prev) (calls : a.calls w = chain f inners)
      (going : a.ended w = none) (unended : b.ended w = none)
      (here : a.position (innermost w (chain f inners)) = .code k)
      (there : b.position (.coroutine f) = .code (outline k))
      (flat : ∀ rest, k = .suspend rest → inners = []) : Seen a b w
  | between {f : Fiber} {prev : Option Fiber} {c : Inner} {inners : List Inner}
      {thrown : Option Exc} (dispatches : Dispatches a b w f prev)
      (calls : a.calls w = .inr c :: chain f inners) (ended : a.ended w = some thrown)
      (unended : b.ended w = none)
      (there : b.position (.coroutine f) = .code (.routine ())) : Seen a b w
  | back {f : Fiber} {prev : Option Fiber} (dispatches : Dispatches a b w f prev)
      (calls : a.calls w = [.inl f]) (ended : a.ended w = some none)
      (over' : b.ended w = some none) : Seen a b w

def Rests (a : Whole Worker Fiber Inner K Exc) (b : Outline Worker Fiber) :
    Fiber ⊕ Inner → Prop
  | .inl f => (∃ k, a.position (.coroutine (.inl f)) = .code (.routine k) ∧
        b.position (.coroutine f) = .code (.routine ())) ∨
      (a.position (.coroutine (.inl f)) = .finished ∧ b.position (.coroutine f) = .finished)
  | .inr c => (∃ k, a.position (.coroutine (.inr c)) = .code (.routine k)) ∨
      (a.position (.coroutine (.inr c))).isOver = true

structure Outlines (a : Whole Worker Fiber Inner K Exc) (b : Outline Worker Fiber) : Prop where
  seen : ∀ w, Seen a b w
  rests : ∀ c, (∀ w, c ∉ a.held w) → Rests a b c

section Frames
variable {a a' : Whole Worker Fiber Inner K Exc} {b b' : Outline Worker Fiber} {w : Worker}
  {f : Fiber}

theorem Seen.called (seen : Seen a b w) : .inl f ∈ a.calls w ↔ f ∈ b.calls w := by
  cases seen with
  | own calls outlined _ _ _ _ => simp [calls, outlined]
  | inside dispatches calls _ _ _ _ _ => simp [calls, dispatches.calls, mem_chain]
  | between dispatches calls _ _ _ => simp [calls, dispatches.calls, mem_chain]
  | back dispatches calls _ _ => simp [calls, dispatches.calls]

theorem Seen.held (seen : Seen a b w) : .inl f ∈ a.held w ↔ f ∈ b.held w := by
  cases seen with
  | own calls outlined going unended _ _ =>
      simp [Asymmetric.State.held, calls, outlined, going, unended]
  | inside dispatches calls going unended _ _ _ =>
      simp [Asymmetric.State.held, calls, dispatches.calls, going, unended, mem_chain]
  | between dispatches calls ended unended _ =>
      simp [Asymmetric.State.held, calls, dispatches.calls, ended, unended, mem_chain]
  | back dispatches calls ended over' =>
      simp [Asymmetric.State.held, calls, dispatches.calls, ended, over']

theorem Seen.alone (seen : Seen a b w) : a.calls w = [] ↔ b.calls w = [] := by
  cases seen with
  | own calls outlined _ _ _ _ => simp [calls, outlined]
  | inside dispatches calls _ _ _ _ _ => simp [calls, dispatches.calls, chain]
  | between dispatches calls _ _ _ => simp [calls, dispatches.calls]
  | back dispatches calls _ _ => simp [calls, dispatches.calls]

theorem Seen.going_inside (seen : Seen a b w) (going : a.ended w = none)
    (called : b.calls w = [f]) : ∃ prev inners k, Dispatches a b w f prev ∧
      a.calls w = chain f inners ∧ b.ended w = none ∧
      a.position (innermost w (chain f inners)) = .code k ∧
      b.position (.coroutine f) = .code (outline k) ∧ ∀ rest, k = .suspend rest → inners = [] := by
  cases seen with
  | own _ outlined _ _ _ _ =>
      rw [called] at outlined
      cases outlined
  | inside dispatches calls _ unended here there flat =>
      cases called.symm.trans dispatches.calls
      exact ⟨_, _, _, dispatches, calls, unended, here, there, flat⟩
  | between _ _ ended _ _ =>
      rw [going] at ended
      cases ended
  | back _ _ ended _ =>
      rw [going] at ended
      cases ended

theorem Dispatches.frame {prev : Option Fiber} (dispatches : Dispatches a b w f prev)
    (same : a'.position (.thread w) = a.position (.thread w))
    (outlined : b'.position (.thread w) = b.position (.thread w)) (calls : b'.calls w = b.calls w) :
    Dispatches a' b' w f prev where
  waits := same.trans dispatches.waits
  outlined := outlined.trans dispatches.outlined
  calls := calls.trans dispatches.calls

theorem Seen.frame (seen : Seen a b w) (calls : a'.calls w = a.calls w)
    (ended : a'.ended w = a.ended w)
    (same : ∀ body, Within w (a.calls w) body → a'.position body = a.position body)
    (outlined : b'.calls w = b.calls w) (over' : b'.ended w = b.ended w)
    (still : ∀ body, Within w (b.calls w) body → b'.position body = b.position body) :
    Seen a' b' w := by
  have thread := same _ (.inl rfl)
  have thread' := still _ (.inl rfl)
  have fiber {f : Fiber} (inside : b.calls w = [f]) :
      b'.position (.coroutine f) = b.position (.coroutine f) :=
    still _ (.inr ⟨f, by simp [inside], rfl⟩)
  -- In each place only the bodies within the calls of the worker are read.
  cases seen with
  | own none none' going unended here there =>
      exact .own (calls.trans none) (outlined.trans none') (ended.trans going)
        (over'.trans unended) (thread.trans here) (thread'.trans there)
  | inside dispatches within going unended here there flat =>
      have top := same _ (innermost_within w (a.calls w))
      rw [within] at top
      exact .inside (dispatches.frame thread thread' outlined) (calls.trans within)
        (ended.trans going) (over'.trans unended) (top.trans here)
        ((fiber dispatches.calls).trans there) flat
  | between dispatches within stopped unended there =>
      exact .between (dispatches.frame thread thread' outlined) (calls.trans within)
        (ended.trans stopped) (over'.trans unended) ((fiber dispatches.calls).trans there)
  | back dispatches within stopped stopped' =>
      exact .back (dispatches.frame thread thread' outlined) (calls.trans within)
        (ended.trans stopped) (over'.trans stopped')

end Frames

section Moves
variable {r : Runtime Worker Fiber} {a : Whole Worker Fiber Inner K Exc}
  {b b' : Outline Worker Fiber} {w : Worker}

theorem apart (good : Good r b) {w' : Worker} (different : w' ≠ w)
    {body : Body Worker Fiber} (within : Within w' (b.calls w') body) : body ≠ b.inControl w := by
  -- The body in control of `w` is its thread or a fiber that `w` executes.
  rintro rfl
  rcases b.inControl_within w with own | ⟨f, called, here⟩
  · rw [own] at within
    rcases within with same | ⟨_, _, same⟩
    · cases same
      exact different rfl
    · cases same
  · rw [here] at within
    rcases within with same | ⟨_, called', same⟩
    · cases same
    · cases same
      exact different
        (good.unique _ _ _ (good.called called').executes (good.called called).executes)

structure Moves (b b' : Outline Worker Fiber) (w : Worker) : Prop where
  calls : ∀ w', w' ≠ w → b'.calls w' = b.calls w'
  ended : ∀ w', w' ≠ w → b'.ended w' = b.ended w'
  position : ∀ body, body ≠ b.inControl w → b'.position body = b.position body

theorem Moves.refl (b : Outline Worker Fiber) (w : Worker) : Moves b b w :=
  ⟨fun _ _ => rfl, fun _ _ => rfl, fun _ _ => rfl⟩

theorem held_going_calls (going : a.ended w = none) : a.held w = a.calls w := by
  simp [Asymmetric.State.held, going]

theorem control_held {calls : List (Fiber ⊕ Inner)} (held : a.held w = calls) :
    a.inControl w = innermost w calls := by
  rw [Asymmetric.State.inControl, held]

structure Busy (a : Whole Worker Fiber Inner K Exc) (b : Outline Worker Fiber) (w : Worker)
    (f : Fiber) (prev : Option Fiber) (inners : List Inner) : Prop where
  dispatches : Dispatches a b w f prev
  held : a.held w = chain f inners
  unended : b.ended w = none
  there : b.position (.coroutine f) = .code (.routine ())

theorem innermost_chain (w : Worker) (f : Fiber) (inners : List Inner) :
    ∃ c, innermost w (chain f inners) = .coroutine c := by
  cases inners with
  | nil => exact ⟨_, rfl⟩
  | cons d rest => exact ⟨_, rfl⟩

variable [DecidableEq Worker] [DecidableEq Fiber] [DecidableEq Inner]
  {e : Event (Fiber ⊕ Inner) (Code Fiber K) Exc}
  {there : Position (Fiber ⊕ Inner) (Code Fiber K) Exc}

theorem moves_after (b : Outline Worker Fiber) (w : Worker)
    (e : Event Fiber (Code Fiber Unit) Empty) (there : Position Fiber (Code Fiber Unit) Empty) :
    Moves b (b.after w e there) w where
  calls w' different := by simp [Asymmetric.State.after, different]
  ended w' different := by simp [Asymmetric.State.after, different]
  position body other := Function.update_of_ne other ..

/-- After an event of one worker only that worker has to be looked at, and the coroutine
that was in control there, if it has left. -/
theorem Outlines.moved (outlines : Outlines a b) (sound : Sound a) (good : Good r b)
    (moves : Moves b b' w) (seen : Seen (a.after w e there) b' w)
    (callee : ∀ c, e.resumes = some c → c ∈ (a.after w e there).held w)
    (left : ∀ c, a.inControl w = .coroutine c → (∀ w', c ∉ (a.after w e there).held w') →
      Rests (a.after w e there) b' c) : Outlines (a.after w e there) b' where
  seen w' := by
    by_cases same : w' = w
    · exact same ▸ seen
    -- Another worker's coroutines are its own, so neither machine moved them.
    · refine (outlines.seen w').frame ?_ ?_
        (sound.elsewhere same (a.inControl_within w) there) (moves.calls w' same)
        (moves.ended w' same) fun body within => moves.position body (apart good same within)
      · simp [Asymmetric.State.after, same]
      · simp [Asymmetric.State.after, same]
  rests c free := by
    by_cases own : a.inControl w = .coroutine c
    · exact left c own free
    -- A coroutine that no worker holds now, and that was not the one in control, rested before.
    · have uncalled : e.resumes ≠ some c := fun called => free w (callee c called)
      have unheld (w' : Worker) : c ∉ a.held w' := fun held =>
        free w' ((held_other own uncalled w').mpr held)
      have before := outlines.rests c unheld
      have same : (a.after w e there).position (.coroutine c) = a.position (.coroutine c) :=
        after_other own
      cases c with
      | inl f =>
          have still : b'.position (.coroutine f) = b.position (.coroutine f) := by
            refine moves.position _ fun control => ?_
            exact unheld w ((outlines.seen w).held.mpr (State.inControl_coroutine control.symm))
          simpa only [Rests, same, still] using before
      | inr c => simpa only [Rests, same] using before

theorem after_stays (stays : e.resumes = none) (goes : e.suspends = false) (k : Code Fiber K) :
    (a.after w e (.code k)).calls w = a.held w ∧ (a.after w e (.code k)).ended w = none ∧
      (a.after w e (.code k)).held w = a.held w ∧
      (a.after w e (.code k)).position (a.inControl w) = .code k := by
  have unended : (a.after w e (.code k)).ended w = none := by
    cases body : a.inControl w <;>
      simp [Asymmetric.State.after, body, Event.ending, goes, Position.isOver]
  have calls : (a.after w e (.code k)).calls w = a.held w := by
    simp [Asymmetric.State.after, callsAfter_stays _ stays]
  refine ⟨calls, unended, ?_, by simp [Asymmetric.State.after]⟩
  rw [Asymmetric.State.held, unended, calls]

theorem after_stops (there : Position (Fiber ⊕ Inner) (Code Fiber K) Exc) {c : Fiber ⊕ Inner}
    (own : a.inControl w = .coroutine c) (stays : e.resumes = none)
    (stops : (e.suspends || there.isOver) = true) :
    (a.after w e there).calls w = a.held w ∧
      (a.after w e there).ended w = some there.thrown := by
  refine ⟨by simp [Asymmetric.State.after, callsAfter_stays _ stays], ?_⟩
  simp [Asymmetric.State.after, own, Event.ending, stops]

theorem after_other_thread {c : Fiber ⊕ Inner} (own : a.inControl w = .coroutine c) :
    (a.after w e there).position (.thread w) = a.position (.thread w) :=
  Function.update_of_ne (by rw [own]; simp) ..

theorem Outlines.goto (outlines : Outlines a b) (sound : Sound a) (good : Good r b)
    {k' : Code Fiber K} (going : a.ended w = none)
    (flat : ∀ rest, k' = .suspend rest → ∀ f inners, a.calls w = chain f inners → inners = []) :
    Outlines (a.after w (.act (.segment k')) (.code k'))
      (b.after w (.act (.segment (outline k'))) (.code (outline k'))) := by
  obtain ⟨calls', ended', held', point⟩ :=
    after_stays (a := a) (w := w) (e := .act (.segment k')) rfl rfl k'
  rw [held_going_calls going] at calls' held'
  refine outlines.moved sound good (moves_after ..) ?_ (fun _ called => by cases called)
    fun c own free => ?_
  · cases outlines.seen w with
    | own calls outlined _ unended here there =>
        have control := control_held ((held_going_calls going).trans calls)
        have control' := Fibers.control_thread outlined
        rw [control] at point
        refine .own (calls'.trans calls) ?_ ended' ?_ point ?_
        · simp [Asymmetric.State.after, Asymmetric.State.held, unended, outlined, Event.callsAfter]
        · simp [Asymmetric.State.after, control', Event.ending]
        · simp [Asymmetric.State.after, control']
    | @inside f prev inners k dispatches calls _ unended here there _ =>
        obtain ⟨c, inner⟩ := innermost_chain w f inners
        have control := control_held ((held_going_calls going).trans calls)
        have control' : b.inControl w = .coroutine f := by
          simp [Asymmetric.State.inControl, Asymmetric.State.held, unended, dispatches.calls,
            innermost]
        rw [control] at point
        refine .inside (dispatches.frame (after_other_thread (control.trans inner))
          (Fibers.after_fiber control') ?_) (calls'.trans calls) ended' ?_ point
          (after_own control') fun rest same => flat rest same f inners calls
        · simp [Asymmetric.State.after, Asymmetric.State.held, unended, Event.callsAfter]
        · simp [Asymmetric.State.after, control', Event.ending, Event.suspends, Position.isOver]
    | between _ _ ended _ _ =>
        rw [going] at ended
        cases ended
    | back _ _ ended _ =>
        rw [going] at ended
        cases ended
  -- A segment leaves its body on the worker, so nothing has left.
  · exact absurd (held' ▸ held_going_calls going ▸ State.inControl_coroutine own) (free w)

theorem Outlines.stay (outlines : Outlines a b) (sound : Sound a) (good : Good r b) {f : Fiber}
    {prev : Option Fiber} {inners : List Inner} (busy : Busy a b w f prev inners)
    (stays : e.resumes = none) (goes : e.suspends = false) (k : K) :
    Outlines (a.after w e (.code (.routine k))) b := by
  obtain ⟨calls', ended', held', point⟩ :=
    after_stays (a := a) (w := w) stays goes (.routine k)
  obtain ⟨c, inner⟩ := innermost_chain w f inners
  have control := control_held busy.held
  rw [control] at point
  refine outlines.moved sound good (.refl b w) ?_ (fun _ called => ?_) fun c own free => ?_
  · exact .inside (busy.dispatches.frame (after_other_thread (control.trans inner)) rfl rfl)
      (calls'.trans busy.held) ended' busy.unended point busy.there fun _ same => by cases same
  · rw [stays] at called
    cases called
  · exact absurd (held' ▸ State.inControl_coroutine own) (free w)

theorem Outlines.stop (outlines : Outlines a b) (sound : Sound a) (good : Good r b) {f : Fiber}
    {prev : Option Fiber} {c : Inner} {inners : List Inner}
    (busy : Busy a b w f prev (c :: inners)) (stays : e.resumes = none)
    (stops : (e.suspends || there.isOver) = true)
    (leaves : (∃ k, there = .code (.routine k)) ∨ there.isOver = true) :
    Outlines (a.after w e there) b := by
  have control : a.inControl w = .coroutine (.inr c) := control_held busy.held
  obtain ⟨calls', ended'⟩ := after_stops there control stays stops
  refine outlines.moved sound good (.refl b w) ?_ (fun _ called => ?_) fun d own _ => ?_
  -- The inner coroutine stopped; its fiber still runs in the outline.
  · exact .between (busy.dispatches.frame (after_other_thread control) rfl rfl)
      (calls'.trans busy.held) ended' busy.unended busy.there
  · rw [stays] at called
    cases called
  · cases control.symm.trans own
    have point : (a.after w e there).position (.coroutine (.inr c)) = there := after_own control
    simpa only [Rests, point] using leaves

theorem Outlines.call (outlines : Outlines a b) (sound : Sound a) (good : Good r b) {f : Fiber}
    {prev : Option Fiber} {inners : List Inner} (busy : Busy a b w f prev inners) {c : Inner}
    (ready : (a.position (.coroutine (.inr c))).isOver = false)
    (free : ∀ w', .inr c ∉ a.calls w') (k : Code Fiber K) :
    Outlines (a.after w (.act (.resume (.inr c) k)) (.waiting (.inr c) k)) b := by
  obtain ⟨d, inner⟩ := innermost_chain w f inners
  have control := (control_held busy.held).trans inner
  -- An inner coroutine in no call is not the one that calls it.
  have apart : a.inControl w ≠ .coroutine (.inr c) := fun own =>
    free w ((a.held_part w).subset (State.inControl_coroutine own))
  obtain ⟨k', point⟩ : ∃ k', a.position (.coroutine (.inr c)) = .code (.routine k') := by
    rcases outlines.rests (.inr c) (fun w' held => free w' ((a.held_part w').subset held)) with
      ready' | ends
    · exact ready'
    · rw [ends] at ready
      cases ready
  have calls' : (a.after w (.act (.resume (.inr c) k)) (.waiting (.inr c) k)).calls w =
      chain f (c :: inners) := by
    simp [Asymmetric.State.after, Event.callsAfter, busy.held, chain]
  have ended' : (a.after w (.act (.resume (.inr c) k)) (.waiting (.inr c) k)).ended w = none := by
    simp [Asymmetric.State.after, control, Event.ending, Event.suspends, Position.isOver]
  have held' := held_going_calls ended'
  refine outlines.moved sound good (.refl b w) ?_ (fun _ called => ?_) fun x own unheld => ?_
  · exact .inside (busy.dispatches.frame (after_other_thread control) rfl rfl) calls' ended'
      busy.unended ((after_other apart).trans point) busy.there fun _ same => by cases same
  · cases called
    rw [held', calls']
    exact List.mem_cons_self
  · refine absurd ?_ (unheld w)
    rw [held', calls']
    have inside := State.inControl_coroutine own
    rw [busy.held] at inside
    exact List.mem_cons_of_mem _ inside

theorem Outlines.resume (outlines : Outlines a b) (sound : Sound a) (good : Good r b) {f : Fiber}
    {prev : Option Fiber} (calls : a.calls w = []) (going : a.ended w = none)
    (unended : b.ended w = none) (free : ∀ w', f ∉ b.calls w')
    (ready : ∃ k, b.position (.coroutine f) = .code (.routine k)) :
    Outlines (a.after w (.act (.resume (.inl f) (.restore f prev))) (.waiting (.inl f)
        (.restore f prev)))
      (b.after w (.act (.resume f (.restore f prev))) (.waiting f (.restore f prev))) := by
  have held : a.held w = [] := (held_going_calls going).trans calls
  have control : a.inControl w = .thread w := control_held held
  have outlined : b.calls w = [] := (outlines.seen w).alone.mp calls
  have control' : b.inControl w = .thread w := Fibers.control_thread outlined
  have unheld (w' : Worker) : .inl f ∉ a.held w' := fun inside =>
    free w' ((b.held_part w').subset ((outlines.seen w').held.mp inside))
  obtain ⟨k, point, there⟩ : ∃ k, a.position (.coroutine (.inl f)) = .code (.routine k) ∧
      b.position (.coroutine f) = .code (.routine ()) := by
    rcases outlines.rests (.inl f) unheld with rests | ⟨_, finished⟩
    · exact rests
    · obtain ⟨_, here⟩ := ready
      rw [finished] at here
      cases here
  have seen : Seen
      (a.after w (.act (.resume (.inl f) (.restore f prev))) (.waiting (.inl f) (.restore f prev)))
      (b.after w (.act (.resume f (.restore f prev))) (.waiting f (.restore f prev))) w := by
    have here : (a.after w (.act (.resume (.inl f) (.restore f prev)))
        (.waiting (.inl f) (.restore f prev))).position (.coroutine (.inl f)) =
        .code (.routine k) := (after_other (by rw [control]; simp)).trans point
    have here' : (b.after w (.act (.resume f (.restore f prev)))
        (.waiting f (.restore f prev))).position (.coroutine f) = .code (.routine ()) :=
      (after_other (by rw [control']; simp)).trans there
    generalize next : a.after w (.act (.resume (.inl f) (.restore f prev)))
      (.waiting (.inl f) (.restore f prev)) = a' at here ⊢
    generalize next' : b.after w (.act (.resume f (.restore f prev)))
      (.waiting f (.restore f prev)) = b' at here' ⊢
    have dispatches : Dispatches a' b' w f prev := by
      refine ⟨?_, ?_, ?_⟩
      · simp [← next, Asymmetric.State.after, control]
      · simp [← next', Asymmetric.State.after, control']
      · simp [← next', Asymmetric.State.after, Asymmetric.State.held, unended, outlined,
          Event.callsAfter]
    have called : a'.calls w = chain f [] := by
      simp [← next, Asymmetric.State.after, held, Event.callsAfter, chain]
    refine .inside dispatches called ?_ ?_ here here' fun _ same => by cases same
    · simp [← next, Asymmetric.State.after, control, Event.ending]
    · simp [← next', Asymmetric.State.after, control', Event.ending]
  refine outlines.moved sound good (moves_after ..) seen (fun _ called => ?_) fun c own _ => ?_
  · cases called
    simp [Asymmetric.State.after, Asymmetric.State.held, going, calls, control, Event.callsAfter,
      Event.ending]
  · rw [control] at own
    cases own

theorem Outlines.resumed (outlines : Outlines a b) (sound : Sound a) (good : Good r b) {f : Fiber}
    {prev : Option Fiber} {thrown : Option Exc} (calls : a.calls w = [.inl f])
    (ended : a.ended w = some thrown) (outlined : b.calls w = [f])
    (ended' : b.ended w = some none) :
    Outlines (a.after w (.resumed (.inl f) thrown) (.code (.restore f prev)))
      (b.after w (.resumed f none) (.code (.restore f prev))) := by
  have control : a.inControl w = .thread w := by
    simp [Asymmetric.State.inControl, Asymmetric.State.held, ended, calls, innermost]
  have control' : b.inControl w = .thread w := by
    simp [Asymmetric.State.inControl, Asymmetric.State.held, ended', outlined, innermost]
  refine outlines.moved sound good (moves_after ..) ?_ (fun _ called => by cases called)
    fun c own _ => ?_
  · refine .own (k := .restore f prev) ?_ ?_ ?_ ?_ ?_ ?_
    · simp [Asymmetric.State.after, Asymmetric.State.held, ended, calls, Event.callsAfter]
    · simp [Asymmetric.State.after, Asymmetric.State.held, ended', outlined, Event.callsAfter]
    · simp [Asymmetric.State.after, control, Event.ending]
    · simp [Asymmetric.State.after, control', Event.ending]
    · simp [Asymmetric.State.after, control]
    · simp [Asymmetric.State.after, control', outline]
  · rw [control] at own
    cases own

theorem Outlines.back (outlines : Outlines a b) (sound : Sound a) (good : Good r b) {f : Fiber}
    {prev : Option Fiber} (dispatches : Dispatches a b w f prev) (calls : a.calls w = [.inl f])
    (going : a.ended w = none) (unended : b.ended w = none)
    {e' : Event Fiber (Code Fiber Unit) Empty} {there' : Position Fiber (Code Fiber Unit) Empty}
    (stays : e.resumes = none) (stays' : e'.resumes = none)
    (stops : (e.suspends || there.isOver) = true) (stops' : (e'.suspends || there'.isOver) = true)
    (quiet : there.thrown = none) (quiet' : there'.thrown = none)
    (leaves : (∃ k, there = .code (.routine k) ∧ there' = .code (.routine ())) ∨
      (there = .finished ∧ there' = .finished)) :
    Outlines (a.after w e there) (b.after w e' there') := by
  have control : a.inControl w = .coroutine (.inl f) := by
    simp [Asymmetric.State.inControl, Asymmetric.State.held, going, calls, innermost]
  have control' : b.inControl w = .coroutine f := by
    simp [Asymmetric.State.inControl, Asymmetric.State.held, unended, dispatches.calls, innermost]
  obtain ⟨calls', ended'⟩ := after_stops there control stays stops
  rw [held_going_calls going, calls] at calls'
  refine outlines.moved sound good (moves_after ..) ?_ (fun _ called => ?_) fun c own _ => ?_
  · refine .back (dispatches.frame (after_other_thread control) (Fibers.after_fiber control') ?_)
      calls' (ended'.trans (congrArg some quiet)) ?_
    · simp [Asymmetric.State.after, callsAfter_stays _ stays', Asymmetric.State.held, unended]
    · simp [Asymmetric.State.after, control', Event.ending, stops', quiet']
  · rw [stays] at called
    cases called
  · cases control.symm.trans own
    have point : (a.after w e there).position (.coroutine (.inl f)) = there := after_own control
    have point' : (b.after w e' there').position (.coroutine f) = there' := after_own control'
    simpa only [Rests, point, point'] using leaves

theorem Outlines.constructs (outlines : Outlines a b) {g : Fiber}
    (free : ∀ w, .inl g ∉ a.calls w) (k : K) :
    Outlines
      { a with position := Function.update a.position (.coroutine (.inl g)) (.code (.routine k)) }
      { b with position := Function.update b.position (.coroutine g) (.code (.routine ())) } where
  seen w := by
    have free' (w' : Worker) : g ∉ b.calls w' := fun called =>
      free w' ((outlines.seen w').called.mpr called)
    exact (outlines.seen w).frame rfl rfl (placed_within free _ w) rfl rfl
      (placed_within free' _ w)
  rests c unheld := by
    by_cases same : c = .inl g
    · subst same
      exact .inl ⟨k, Function.update_self .., Function.update_self ..⟩
    · have before := outlines.rests c unheld
      have still : Function.update a.position (.coroutine (.inl g)) (.code (.routine k))
          (.coroutine c) = a.position (.coroutine c) :=
        Function.update_of_ne (by simpa using same) ..
      cases c with
      | inl f =>
          have other : f ≠ g := fun eq => same (congrArg Sum.inl eq)
          have still' : Function.update b.position (.coroutine g) (.code (.routine ()))
              (.coroutine f) = b.position (.coroutine f) :=
            Function.update_of_ne (by simpa using other) ..
          simpa only [Rests, still, still'] using before
      | inr d => simpa only [Rests, still] using before

end Moves

theorem init_outlines [DecidableEq Fiber] [DecidableEq K] (language : Language Inner K Exc)
    (payload : Fiber → K) :
    Outlines (Asymmetric.init (program language payload) : Whole Worker Fiber Inner K Exc)
      (Asymmetric.init (Fibers.program (fun _ _ => true) fun _ => ())) where
  seen w := .own rfl rfl rfl rfl (k := .idle) rfl rfl
  rests c _ := by
    cases c with
    | inl f => exact .inl ⟨payload f, rfl, rfl⟩
    | inr d => exact .inl ⟨language.body d, rfl⟩

end ConcurrencyCourse.NestedFibers
