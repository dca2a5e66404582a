import ConcurrencyCourse.TicketLock

/-!
`TicketLock::TryLock` tests the lock and then calls Lock, which takes whatever
ticket is next by then. This file settles when that waits: exactly in the runs
where another thread's `fetch_add` or Unlock falls between the loads of a TryLock
and its own `fetch_add` and makes its test stale. A TryLock that returns false did
not fail without reason: the two counters were apart at some moment of the call.
-/

namespace ConcurrencyCourse.TryLock

open Interleaving TicketLock

variable {w : ℕ} {Thread : Type}

def insideTry : Pc w → Bool
  | .tryLock | .tryOwner _ | .tryNext _ | .fetchAdd true | .spin true _ => true
  | _ => false

section Alone
variable [DecidableEq Thread]

def ReturnsAlone (t : Thread) (s : State w Thread) : Prop :=
  FinishesAlone step (fun label => label.1 = t) (fun s => insideTry (s.pc t) = false) s

/-- What is left of a TryLock agrees with the counters as they stand: a ticket it
took is being served, and a test it would now pass finds the lock free. -/
def Current (s : State w Thread) : Pc w → Prop
  | .spin true ticket => ticket = s.ownerTicket
  | .fetchAdd true => s.nextFreeTicket = s.ownerTicket
  | .tryOwner next => next = s.ownerTicket → s.nextFreeTicket = s.ownerTicket
  | .tryNext owner => s.nextFreeTicket = owner → owner = s.ownerTicket
  | _ => True

variable {s : State w Thread} {t : Thread}

theorem spin_returns {ticket : BitVec w} (here : s.pc t = .spin true ticket)
    (served : ticket = s.ownerTicket) : ReturnsAlone t s := by
  apply FinishesAlone.goes
  · exact ⟨(t, .enter), rfl, by simp [step, here, served]⟩
  · rintro ⟨_, op⟩ after rfl taken
    cases op <;> simp [step, here, served] at taken
    exact .finished (by simp [← taken, insideTry])

theorem fetchAdd_returns (here : s.pc t = .fetchAdd true)
    (free : s.nextFreeTicket = s.ownerTicket) : ReturnsAlone t s := by
  apply FinishesAlone.goes
  · exact ⟨(t, .fetchAdd), rfl, by simp [step, here]⟩
  · rintro ⟨_, op⟩ after rfl taken
    cases op <;> simp [step, here] at taken
    subst taken
    exact spin_returns (by simp) free

theorem test_returns {isFreeLock : Bool} (here : s.pc t = afterTest isFreeLock)
    (fresh : isFreeLock = true → s.nextFreeTicket = s.ownerTicket) : ReturnsAlone t s := by
  cases isFreeLock with
  | false => exact .finished (by simp [here, afterTest, insideTry])
  | true => exact fetchAdd_returns here (fresh rfl)

theorem tryOwner_returns {next : BitVec w} (here : s.pc t = .tryOwner next)
    (fresh : next = s.ownerTicket → s.nextFreeTicket = s.ownerTicket) : ReturnsAlone t s := by
  apply FinishesAlone.goes
  · exact ⟨(t, .loadOwner), rfl, by simp [step, here]⟩
  · rintro ⟨_, op⟩ after rfl taken
    cases op <;> simp [step, here] at taken
    subst taken
    exact test_returns (Function.update_self ..) (by simpa using fresh)

theorem tryNext_returns {owner : BitVec w} (here : s.pc t = .tryNext owner)
    (fresh : s.nextFreeTicket = owner → owner = s.ownerTicket) : ReturnsAlone t s := by
  apply FinishesAlone.goes
  · exact ⟨(t, .loadNext), rfl, by simp [step, here]⟩
  · rintro ⟨_, op⟩ after rfl taken
    cases op <;> simp [step, here] at taken
    subst taken
    refine test_returns (Function.update_self ..) ?_
    intro equal
    have same : s.nextFreeTicket = owner := by simpa using equal
    exact same.trans (fresh same)

theorem tryLock_returns (here : s.pc t = .tryLock) : ReturnsAlone t s := by
  apply FinishesAlone.goes
  · exact ⟨(t, .loadNextFirst), rfl, by simp [step, here]⟩
  · rintro ⟨_, op⟩ after rfl taken
    cases op <;> simp [step, here] at taken
    · subst taken
      exact tryOwner_returns (Function.update_self ..) (by simp)
    · subst taken
      exact tryNext_returns (Function.update_self ..) (by simp)

theorem returnsAlone_after {op : Op} {after : State w Thread} (returns : ReturnsAlone t s)
    (inside : insideTry (s.pc t) = true) (taken : step s (t, op) = some after) :
    ReturnsAlone t after :=
  returns.next (by simp [inside]) rfl taken

theorem spin_current {ticket : BitVec w} (returns : ReturnsAlone t s)
    (here : s.pc t = .spin true ticket) : ticket = s.ownerTicket := by
  by_contra stale
  -- Spinning on a ticket that is not served changes nothing, however often.
  have loops : step s (t, .spin) = some s := by simp [step, here, stale]
  exact returns.no_loop (by simp [here, insideTry]) rfl loops

theorem fetchAdd_current (returns : ReturnsAlone t s) (here : s.pc t = .fetchAdd true) :
    s.nextFreeTicket = s.ownerTicket := by
  have taken : step s (t, .fetchAdd) = some
      { s with
        nextFreeTicket := s.nextFreeTicket + 1
        pc := Function.update s.pc t (.spin true s.nextFreeTicket) } := by
    simp [step, here]
  have later := returnsAlone_after returns (by simp [here, insideTry]) taken
  have served := spin_current later (Function.update_self ..)
  exact served

theorem tryOwner_current {next : BitVec w} (returns : ReturnsAlone t s)
    (here : s.pc t = .tryOwner next) : next = s.ownerTicket → s.nextFreeTicket = s.ownerTicket := by
  rintro rfl
  have taken : step s (t, .loadOwner) = some
      { s with pc := Function.update s.pc t (.fetchAdd true) } := by
    simp [step, here, afterTest]
  have later := returnsAlone_after returns (by simp [here, insideTry]) taken
  have free := fetchAdd_current later (Function.update_self ..)
  exact free

theorem tryNext_current {owner : BitVec w} (returns : ReturnsAlone t s)
    (here : s.pc t = .tryNext owner) : s.nextFreeTicket = owner → owner = s.ownerTicket := by
  rintro rfl
  have taken : step s (t, .loadNext) = some
      { s with pc := Function.update s.pc t (.fetchAdd true) } := by
    simp [step, here, afterTest]
  have later := returnsAlone_after returns (by simp [here, insideTry]) taken
  have free := fetchAdd_current later (Function.update_self ..)
  exact free

theorem returnsAlone_iff (t : Thread) (s : State w Thread) :
    ReturnsAlone t s ↔ Current s (s.pc t) := by
  cases here : s.pc t with
  | tryLock => exact ⟨fun _ => trivial, fun _ => tryLock_returns here⟩
  | tryOwner next => exact ⟨fun returns => tryOwner_current returns here, tryOwner_returns here⟩
  | tryNext owner => exact ⟨fun returns => tryNext_current returns here, tryNext_returns here⟩
  | fetchAdd tried =>
      cases tried with
      | false => exact ⟨fun _ => trivial, fun _ => .finished (by simp [here, insideTry])⟩
      | true => exact ⟨fun returns => fetchAdd_current returns here, fetchAdd_returns here⟩
  | spin tried ticket =>
      cases tried with
      | false => exact ⟨fun _ => trivial, fun _ => .finished (by simp [here, insideTry])⟩
      | true => exact ⟨fun returns => spin_current returns here, spin_returns here⟩
  | outside | critical =>
      exact ⟨fun _ => trivial, fun _ => .finished (by simp [here, insideTry])⟩

end Alone

/-! The condition on the steps of the other threads, and why it is exact. -/
section Disturbance

/-- A step that makes no TryLock of another thread stale. A `fetch_add` must not
fall where a TryLock has passed its test without its own ticket, or has read
`next_free_ticket_` equal to the present `owner_ticket_`, or, the counters having
gone round, has read as `owner_ticket_` what `next_free_ticket_` becomes. An Unlock
must not raise `owner_ticket_` to a `next_free_ticket_` that a TryLock has read and
that is out of date. -/
def Undisturbed (s : State w Thread) : Thread × Op → Prop
  | (t, .fetchAdd) => ∀ u, u ≠ t → s.pc u ≠ .fetchAdd true ∧ s.pc u ≠ .tryOwner s.ownerTicket ∧
      s.pc u ≠ .tryNext (s.nextFreeTicket + 1)
  | (_, .unlock) => ∀ u, s.pc u = .tryOwner (s.ownerTicket + 1) →
      s.nextFreeTicket = s.ownerTicket + 1
  | _ => True

instance [Fintype Thread] [DecidableEq Thread] (s : State w Thread) (label : Thread × Op) :
    Decidable (Undisturbed s label) :=
  match label with
  | (t, .fetchAdd) => inferInstanceAs (Decidable (∀ u, u ≠ t → s.pc u ≠ .fetchAdd true ∧
      s.pc u ≠ .tryOwner s.ownerTicket ∧ s.pc u ≠ .tryNext (s.nextFreeTicket + 1)))
  | (_, .unlock) => inferInstanceAs (Decidable (∀ u, s.pc u = .tryOwner (s.ownerTicket + 1) →
      s.nextFreeTicket = s.ownerTicket + 1))
  | (_, .callLock) | (_, .callTryLock) | (_, .spin) | (_, .enter) | (_, .loadNextFirst)
  | (_, .loadOwnerFirst) | (_, .loadOwner) | (_, .loadNext) => inferInstanceAs (Decidable True)

/-- No thread inside TryLock holds a ticket that is not being served, each of them
returns by its own steps, and whoever got in, through TryLock or Lock, owns the lock. -/
structure NonBlocking [DecidableEq Thread] (s : State w Thread) : Prop where
  served : ∀ t ticket, s.pc t = .spin true ticket → ticket = s.ownerTicket
  returns : ∀ t, insideTry (s.pc t) = true → ReturnsAlone t s
  owns : ∀ t ticket, s.pc t = .critical ticket →
    ticket = s.ownerTicket ∧ ∀ u ticket', s.pc u = .critical ticket' → u = t

theorem current_start (u : Thread) : Current (init : State w Thread) (init.pc u) := trivial

theorem nonBlocking_of_current [DecidableEq Thread] {s : State w Thread}
    {line : FifoLock.Line Thread} (represents : Represents s line)
    (current : ∀ u, Current s (s.pc u)) : NonBlocking s := by
  constructor
  · intro t ticket here
    simpa [Current, here] using current t
  · intro t _
    exact (returnsAlone_iff t s).mpr (current t)
  · intro t ticket here
    exact critical_unique represents here

theorem overtaken_current {s after : State w Thread} {u : Thread} (current : Current s (s.pc u))
    (undisturbed : s.pc u ≠ .fetchAdd true ∧ s.pc u ≠ .tryOwner s.ownerTicket ∧
      s.pc u ≠ .tryNext (s.nextFreeTicket + 1)) (owner : after.ownerTicket = s.ownerTicket)
    (next : after.nextFreeTicket = s.nextFreeTicket + 1) : Current after (s.pc u) := by
  rcases undisturbed with ⟨untested, unread, unwrapped⟩
  cases there : s.pc u with
  | fetchAdd tried =>
      cases tried with
      | false => trivial
      | true => exact absurd there untested
  | spin tried ticket =>
      cases tried with
      | false => trivial
      | true => simpa [Current, there, owner] using current
  | tryOwner read =>
      intro same
      rw [owner] at same
      subst same
      exact absurd there unread
  | tryNext read =>
      intro same
      rw [next] at same
      subst same
      exact absurd there unwrapped
  | outside | critical | tryLock => trivial

variable [Fintype Thread] {s after : State w Thread} {line : FifoLock.Line Thread}

/-- With `extra` threads outside the line, fewer than 2^w tickets beyond `owner_ticket_`
bring `next_free_ticket_` round to it again. -/
theorem counters_differ (few : Fintype.card Thread ≤ 2 ^ w) (represents : Represents s line)
    (more : ℕ) (some' : 0 < line.waiting.length + more)
    (bound : line.waiting.length + more < Fintype.card Thread) :
    s.nextFreeTicket + BitVec.ofNat w more ≠ s.ownerTicket := by
  intro equal
  rw [represents.next, BitVec.add_assoc, ← BitVec.ofNat_add] at equal
  have zero : s.ownerTicket + BitVec.ofNat w (line.waiting.length + more) =
      s.ownerTicket + BitVec.ofNat w 0 := by simpa using equal
  have none := FifoLock.ofNat_cancel s.ownerTicket (by omega) (Nat.two_pow_pos w) zero
  omega

theorem line_shorter (represents : Represents s line) {u : Thread}
    (ticketless : (s.pc u).ticket = none) : line.waiting.length + 1 ≤ Fintype.card Thread := by
  have absent : u ∉ line.waiting := by
    rw [← represents.numbered.holders u]
    simp [ticketless]
  have distinct : (u :: line.waiting).Nodup := List.nodup_cons.mpr ⟨absent, line.distinct⟩
  simpa using distinct.length_le_card

theorem line_shorter_by_two (represents : Represents s line) {t u : Thread} (different : u ≠ t)
    (ticketless : (s.pc u).ticket = none) (ticketless' : (s.pc t).ticket = none) :
    line.waiting.length + 2 ≤ Fintype.card Thread := by
  have absent (v : Thread) (none : (s.pc v).ticket = none) : v ∉ line.waiting := by
    rw [← represents.numbered.holders v]
    simp [none]
  have distinct : (u :: t :: line.waiting).Nodup := by
    simp [different, absent u ticketless, absent t ticketless', line.distinct]
  have few := distinct.length_le_card
  simp only [List.length_cons] at few
  omega

theorem counters_busy (few : Fintype.card Thread ≤ 2 ^ w) (represents : Represents s line)
    {t u : Thread} {k : BitVec w} (held : (s.pc t).ticket = some k)
    (ticketless : (s.pc u).ticket = none) : s.nextFreeTicket ≠ s.ownerTicket := by
  have member : t ∈ line.waiting := (represents.numbered.holders t).mp (by simp [held])
  have longer := List.length_pos_of_mem member
  have shorter := line_shorter represents ticketless
  have apart := counters_differ few represents 0 (by omega) (by omega)
  simpa using apart

theorem unlocked_current (few : Fintype.card Thread ≤ 2 ^ w) (represents : Represents s line)
    {t u : Thread} (held : (s.pc t).ticket = some s.ownerTicket) (other : u ≠ t)
    (current : Current s (s.pc u))
    (undisturbed : s.pc u = .tryOwner (s.ownerTicket + 1) → s.nextFreeTicket = s.ownerTicket + 1)
    (owner : after.ownerTicket = s.ownerTicket + 1)
    (next : after.nextFreeTicket = s.nextFreeTicket) : Current after (s.pc u) := by
  have busy : (s.pc u).ticket = none → s.nextFreeTicket ≠ s.ownerTicket :=
    fun ticketless => counters_busy few represents held ticketless
  cases there : s.pc u with
  | fetchAdd tried =>
      cases tried with
      | false => trivial
      | true =>
          have free : s.nextFreeTicket = s.ownerTicket := by simpa [Current, there] using current
          exact absurd free (busy (by simp [there, Pc.ticket]))
  | spin tried k =>
      cases tried with
      | false => trivial
      | true =>
          have served : k = s.ownerTicket := by simpa [Current, there] using current
          have held' : (s.pc u).ticket = some s.ownerTicket := by simp [there, served, Pc.ticket]
          have same := FifoLock.tickets_distinct represents.numbered
            ((line_length line).trans few) held held'
          exact absurd same.symm other
  | tryOwner read =>
      intro same
      rw [owner] at same ⊢
      rw [next]
      subst same
      exact undisturbed there
  | tryNext read =>
      intro equal
      rw [next] at equal
      have before : s.nextFreeTicket = read → read = s.ownerTicket := by
        simpa [Current, there] using current
      exact absurd (equal.trans (before equal)) (busy (by simp [there, Pc.ticket]))
  | outside | critical | tryLock => trivial

variable [DecidableEq Thread]

theorem current_step (few : Fintype.card Thread ≤ 2 ^ w) (represents : Represents s line)
    (current : ∀ u, Current s (s.pc u)) (label : Thread × Op) (undisturbed : Undisturbed s label)
    (taken : step s label = some after) (u : Thread) : Current after (after.pc u) := by
  rcases label with ⟨t, op⟩
  have mine := current t
  have theirs := current u
  cases op with
  | callLock | callTryLock | loadNextFirst | loadOwnerFirst =>
      rcases guarded_eq_some.mp taken with ⟨_, rfl⟩
      by_cases self : u = t
      · simp [self, Current]
      · simpa [self, Current] using theirs
  | loadOwner =>
      rcases loadOwner_step taken with ⟨next, here, rfl⟩
      by_cases self : u = t
      · by_cases equal : next = s.ownerTicket
        · simpa [self, equal, afterTest, Current, here] using mine
        · simp [self, equal, afterTest, Current]
      · simpa [self, Current] using theirs
  | loadNext =>
      rcases loadNext_step taken with ⟨owner, here, rfl⟩
      by_cases self : u = t
      · by_cases equal : s.nextFreeTicket = owner
        · simpa [self, equal, afterTest, Current, here] using mine
        · simp [self, equal, afterTest, Current]
      · simpa [self, Current] using theirs
  | fetchAdd =>
      rcases fetchAdd_step taken with ⟨tried, here, rfl⟩
      by_cases self : u = t
      · cases tried with
        | false => simp [self, Current]
        | true => simpa [self, Current, here] using mine
      · simp only [Function.update_of_ne self]
        exact overtaken_current theirs (undisturbed u self) rfl rfl
  | spin =>
      rcases spin_step taken with ⟨_, _, _, _, rfl⟩
      exact theirs
  | enter =>
      rcases enter_step taken with ⟨_, _, rfl⟩
      by_cases self : u = t
      · simp [self, Current]
      · simpa [self, Current] using theirs
  | unlock =>
      rcases unlock_step taken with ⟨ticket, here, rfl⟩
      by_cases self : u = t
      · simp [self, Current]
      · have held : (s.pc t).ticket = some s.ownerTicket := by
          rw [(critical_unique represents here).1] at here
          simp [here, Pc.ticket]
        simp only [Function.update_of_ne self]
        exact unlocked_current few represents held self theirs (undisturbed u) rfl rfl

theorem disturbed_stale (few : Fintype.card Thread ≤ 2 ^ w) (represents : Represents s line)
    (label : Thread × Op) (disturbed : ¬ Undisturbed s label) (taken : step s label = some after) :
    ∃ u, insideTry (after.pc u) = true ∧ ¬ Current after (after.pc u) := by
  rcases label with ⟨t, op⟩
  cases op with
  | fetchAdd =>
      rcases fetchAdd_step taken with ⟨tried, here, rfl⟩
      simp only [Undisturbed, not_forall, not_and_or, not_not] at disturbed
      rcases disturbed with ⟨u, self, which⟩
      have ticketless : (s.pc u).ticket = none := by
        rcases which with there | there | there <;> simp [there, Pc.ticket]
      have shorter := line_shorter_by_two represents self ticketless (by simp [here, Pc.ticket])
      have apart : s.nextFreeTicket + 1 ≠ s.ownerTicket :=
        counters_differ few represents 1 (by omega) (by omega)
      refine ⟨u, ?_, ?_⟩
      · simp only [Function.update_of_ne self]
        rcases which with there | there | there <;> simp [there, insideTry]
      · simp only [Function.update_of_ne self]
        rcases which with there | there | there
        · simpa [there, Current] using apart
        · simpa [there, Current] using apart
        · simpa [there, Current] using apart
  | unlock =>
      rcases unlock_step taken with ⟨ticket, here, rfl⟩
      simp only [Undisturbed, not_forall] at disturbed
      rcases disturbed with ⟨u, there, behind⟩
      have self : u ≠ t := by
        rintro rfl
        simp [here] at there
      refine ⟨u, ?_, ?_⟩
      · simp [self, there, insideTry]
      · simpa [self, there, Current] using behind
  | _ => exact absurd trivial disturbed

/-- TryLock never waits in exactly the runs whose steps are all undisturbed: these
are the runs in every state of which each TryLock returns by its own steps, holds no
ticket but the one being served, and has the lock if it got in. -/
theorem try_lock_nonblocking (few : Fintype.card Thread ≤ 2 ^ w) (trace : List (Thread × Op))
    (s : State w Thread) :
    Reaches step Undisturbed init trace s ↔ Reaches step unrestricted init trace s ∧
      ∀ early (s' : State w Thread), early <+: trace → Reaches step unrestricted init early s' →
        NonBlocking s' := by
  have current (trace : List (Thread × Op)) (s : State w Thread)
      (reached : Reaches step Undisturbed init trace s) : ∀ u, Current s (s.pc u) := by
    induction reached with
    | start => exact current_start
    | next label reached undisturbed taken ih =>
        rcases lock_refines few reached with ⟨line, _, represents⟩
        exact current_step few represents ih label undisturbed taken
  apply reaches_exactly
  · intro trace s reached
    rcases lock_refines few reached with ⟨line, _, represents⟩
    exact nonBlocking_of_current represents (current trace s reached)
  · intro trace s label after reached taken disturbed nonBlocking
    rcases lock_refines few reached with ⟨line, _, represents⟩
    rcases disturbed_stale few represents label disturbed taken with ⟨u, inside, stale⟩
    exact stale ((returnsAlone_iff u after).mp (nonBlocking.returns u inside))

/-- One thread gets in through TryLock, another is turned away while it is inside. -/
theorem try_lock_nonblocking_turned_away :
    ∃ (trace : List (Fin 2 × Op)) (s : State 64 (Fin 2)),
      run (restricted step Undisturbed) init trace = some s ∧ s.pc 0 = .critical 0 ∧
      s.pc 1 = .outside ∧ NonBlocking s := by
  have ran : run (restricted step Undisturbed) (init : State 64 (Fin 2))
      [(0, .callTryLock), (0, .loadNextFirst), (0, .loadOwner), (0, .fetchAdd), (0, .enter),
        (1, .callTryLock), (1, .loadOwnerFirst), (1, .loadNext)] = some _ := rfl
  have good := (try_lock_nonblocking (by simp) _ _).mp (run_reaches ran)
  exact ⟨_, _, ran, rfl, rfl, good.2 _ _ (List.prefix_refl _) good.1⟩

/-- A TryLock that found the lock free takes ticket 1 behind another thread's Lock
and waits for its Unlock. -/
theorem try_lock_waits :
    ¬ ∀ (trace : List (Fin 2 × Op)) (s : State 64 (Fin 2)),
      Reaches step unrestricted init trace s → NonBlocking s := by
  intro nonBlocking
  have ran : run step (init : State 64 (Fin 2))
      [(0, .callTryLock), (0, .loadNextFirst), (0, .loadOwner), (1, .callLock), (1, .fetchAdd),
        (1, .enter), (0, .fetchAdd)] = some _ := rfl
  have served := (nonBlocking _ _ (run_free ran)).served 0 1 rfl
  exact absurd served (by decide)

end Disturbance

/-! A TryLock that returns false. -/
section Refusal

def loading : Pc w → Bool
  | .tryLock | .tryOwner _ | .tryNext _ => true
  | _ => false

/-- What a TryLock has read is still what it would read of the other counter, if the
lock was never taken since the call. -/
def FreshRead (s : State w Thread) : Pc w → Prop
  | .tryOwner next => next = s.ownerTicket
  | .tryNext owner => s.nextFreeTicket = owner
  | _ => True

theorem freshRead_afterTest (s : State w Thread) (isFreeLock : Bool) :
    FreshRead s (afterTest isFreeLock) := by
  cases isFreeLock <;> trivial

variable [DecidableEq Thread] {s after : State w Thread} {t u : Thread} {op : Op}

theorem frame_step (taken : step s (u, op) = some after) :
    (∀ v, v ≠ u → after.pc v = s.pc v) ∧
      (op ≠ .fetchAdd → after.nextFreeTicket = s.nextFreeTicket) ∧
      (op ≠ .unlock → after.ownerTicket = s.ownerTicket) := by
  cases op with
  | callLock | callTryLock | loadNextFirst | loadOwnerFirst =>
      rcases guarded_eq_some.mp taken with ⟨_, rfl⟩
      exact ⟨fun _ other => Function.update_of_ne other _ _, fun _ => rfl, fun _ => rfl⟩
  | loadOwner =>
      rcases loadOwner_step taken with ⟨_, _, rfl⟩
      exact ⟨fun _ other => Function.update_of_ne other _ _, fun _ => rfl, fun _ => rfl⟩
  | loadNext =>
      rcases loadNext_step taken with ⟨_, _, rfl⟩
      exact ⟨fun _ other => Function.update_of_ne other _ _, fun _ => rfl, fun _ => rfl⟩
  | fetchAdd =>
      rcases fetchAdd_step taken with ⟨_, _, rfl⟩
      exact ⟨fun _ other => Function.update_of_ne other _ _, fun same => absurd rfl same,
        fun _ => rfl⟩
  | spin =>
      rcases spin_step taken with ⟨_, _, _, _, rfl⟩
      exact ⟨fun _ _ => rfl, fun _ => rfl, fun _ => rfl⟩
  | enter =>
      rcases enter_step taken with ⟨_, _, rfl⟩
      exact ⟨fun _ other => Function.update_of_ne other _ _, fun _ => rfl, fun _ => rfl⟩
  | unlock =>
      rcases unlock_step taken with ⟨_, _, rfl⟩
      exact ⟨fun _ other => Function.update_of_ne other _ _, fun _ => rfl,
        fun same => absurd rfl same⟩

theorem counters_still (wide : 0 < w) (idle : s.ownerTicket = s.nextFreeTicket)
    (idle' : after.ownerTicket = after.nextFreeTicket) (taken : step s (u, op) = some after) :
    after.nextFreeTicket = s.nextFreeTicket ∧ after.ownerTicket = s.ownerTicket := by
  have one : (1 : BitVec w) ≠ 0 := by
    intro zero
    exact absurd (BitVec.one_eq_zero_iff.mp zero) wide.ne'
  rcases frame_step taken with ⟨_, next, owner⟩
  by_cases adds : op = .fetchAdd
  · subst adds
    rcases fetchAdd_step taken with ⟨_, _, rfl⟩
    rw [idle] at idle'
    exact absurd (BitVec.add_right_eq_self.mp idle'.symm) one
  · by_cases frees : op = .unlock
    · subst frees
      rcases unlock_step taken with ⟨_, _, rfl⟩
      rw [← idle] at idle'
      exact absurd (BitVec.add_right_eq_self.mp idle') one
    · exact ⟨next adds, owner frees⟩

theorem loading_step (taken : step s (u, op) = some after) (called : (u, op) ≠ (t, .callTryLock))
    (there : loading (after.pc t) = true) : loading (s.pc t) = true := by
  by_cases self : t = u
  · subst self
    cases op with
    | callTryLock => exact absurd rfl called
    | callLock =>
        rcases guarded_eq_some.mp taken with ⟨_, rfl⟩
        simp [loading] at there
    | loadNextFirst | loadOwnerFirst =>
        rcases guarded_eq_some.mp taken with ⟨here, _⟩
        rw [here]
        rfl
    | loadOwner =>
        rcases loadOwner_step taken with ⟨_, here, _⟩
        rw [here]
        rfl
    | loadNext =>
        rcases loadNext_step taken with ⟨_, here, _⟩
        rw [here]
        rfl
    | fetchAdd =>
        rcases fetchAdd_step taken with ⟨_, _, rfl⟩
        simp [loading] at there
    | spin =>
        rcases spin_step taken with ⟨_, _, here, _, rfl⟩
        rw [here] at there
        cases there
    | enter =>
        rcases enter_step taken with ⟨_, _, rfl⟩
        simp [loading] at there
    | unlock =>
        rcases unlock_step taken with ⟨_, _, rfl⟩
        simp [loading] at there
  · rw [(frame_step taken).1 t self] at there
    exact there

theorem loading_counters (here : loading (s.pc t) = true) (taken : step s (t, op) = some after) :
    after.nextFreeTicket = s.nextFreeTicket ∧ after.ownerTicket = s.ownerTicket := by
  rcases frame_step taken with ⟨_, next, owner⟩
  constructor
  · apply next
    rintro rfl
    rcases fetchAdd_step taken with ⟨_, there, _⟩
    rw [there] at here
    cases here
  · apply owner
    rintro rfl
    rcases unlock_step taken with ⟨_, there, _⟩
    rw [there] at here
    cases here

theorem loading_since {start : State w Thread} {span : List (Thread × Op)}
    (reached : Reaches step (fun s label => unrestricted s label ∧ label ≠ (t, .callTryLock))
      start span after) (there : loading (after.pc t) = true) : loading (start.pc t) = true := by
  induction reached with
  | start => exact there
  | next label _ admitted taken ih => exact ih (loading_step taken admitted.2 there)

theorem freshRead_step (wide : 0 < w) (idle : s.ownerTicket = s.nextFreeTicket)
    (idle' : after.ownerTicket = after.nextFreeTicket) (fresh : FreshRead s (s.pc t))
    (taken : step s (u, op) = some after) : FreshRead after (after.pc t) := by
  by_cases self : t = u
  · subst self
    cases op with
    | callLock | callTryLock | loadNextFirst | loadOwnerFirst =>
        rcases guarded_eq_some.mp taken with ⟨_, rfl⟩
        simp [FreshRead, idle]
    | loadOwner =>
        rcases loadOwner_step taken with ⟨_, _, rfl⟩
        simpa using freshRead_afterTest _ _
    | loadNext =>
        rcases loadNext_step taken with ⟨_, _, rfl⟩
        simpa using freshRead_afterTest _ _
    | fetchAdd =>
        rcases fetchAdd_step taken with ⟨_, _, rfl⟩
        simp [FreshRead]
    | spin =>
        rcases spin_step taken with ⟨_, _, _, _, rfl⟩
        exact fresh
    | enter =>
        rcases enter_step taken with ⟨_, _, rfl⟩
        simp [FreshRead]
    | unlock =>
        rcases unlock_step taken with ⟨_, _, rfl⟩
        simp [FreshRead]
  · rcases counters_still wide idle idle' taken with ⟨next, owner⟩
    rw [(frame_step taken).1 t self]
    cases here : s.pc t with
    | tryOwner read => simpa [FreshRead, here, owner] using fresh
    | tryNext read => simpa [FreshRead, here, next] using fresh
    | _ => trivial

theorem freshRead_since (wide : 0 < w) {allowed : State w Thread → Thread × Op → Prop}
    {start : State w Thread} {span : List (Thread × Op)} (called : start.pc t = .tryLock)
    (reached : Reaches step allowed start span s)
    (idle : ∀ part s', part <+: span → Reaches step allowed start part s' →
      s'.ownerTicket = s'.nextFreeTicket) : FreshRead s (s.pc t) := by
  induction reached with
  | start =>
      rw [called]
      trivial
  | @next trace s after label reached admitted taken ih =>
      have shorter := List.prefix_append trace [label]
      have before := ih fun part s' within => idle part s' (within.trans shorter)
      exact freshRead_step wide (idle trace s shorter reached)
        (idle _ after (List.prefix_refl _) (.next label reached admitted taken)) before taken

theorem served_thread [Fintype Thread] (few : Fintype.card Thread ≤ 2 ^ w)
    {trace : List (Thread × Op)} (reached : Reaches step unrestricted init trace s)
    (apart : s.ownerTicket ≠ s.nextFreeTicket) : ∃ u, (s.pc u).ticket = some s.ownerTicket := by
  rcases lock_refines few reached with ⟨line, _, represents⟩
  cases stands : line.waiting with
  | nil =>
      have same := represents.next
      rw [stands] at same
      exact absurd (by simpa using same.symm) apart
  | cons first rest =>
      have ticket := represents.numbered.position 0 first (by rw [stands]; rfl)
      exact ⟨first, by simpa using ticket⟩

theorem refused_read (test : op = .loadOwner ∨ op = .loadNext)
    (taken : step s (t, op) = some after) (refused : after.pc t = .outside) :
    loading (s.pc t) = true ∧ ¬ FreshRead s (s.pc t) := by
  rcases test with rfl | rfl
  · rcases loadOwner_step taken with ⟨next, here, rfl⟩
    refine ⟨by rw [here]; rfl, fun fresh => ?_⟩
    have same : next = s.ownerTicket := by simpa [here, FreshRead] using fresh
    simp [same, afterTest] at refused
  · rcases loadNext_step taken with ⟨owner, here, rfl⟩
    refine ⟨by rw [here]; rfl, fun fresh => ?_⟩
    have same : s.nextFreeTicket = owner := by simpa [here, FreshRead] using fresh
    simp [same, afterTest] at refused

/-- TryLock never fails spuriously, whichever counter it reads first. If a call of `t`
returns false, then at some moment of the call the counters were apart and another thread
held the ticket being served; and no step of the call changed a counter. -/
theorem try_lock_not_spurious [Fintype Thread] (few : Fintype.card Thread < 2 ^ w)
    {early span : List (Thread × Op)}
    (reached : Reaches step unrestricted (init : State w Thread)
      (early ++ (t, .callTryLock) :: (span ++ [(t, op)])) s)
    (oneCall : (t, .callTryLock) ∉ span) (test : op = .loadOwner ∨ op = .loadNext)
    (refused : s.pc t = .outside) :
    (∃ part, ∃ s' : State w Thread, part <+: span ∧
      Reaches step unrestricted init (early ++ (t, .callTryLock) :: part) s' ∧
      s'.ownerTicket ≠ s'.nextFreeTicket ∧
      ∃ u, u ≠ t ∧ (s'.pc u).ticket = some s'.ownerTicket) ∧
    ∀ part op' rest, ∀ before after : State w Thread,
      (t, .callTryLock) :: (span ++ [(t, op)]) = part ++ (t, op') :: rest →
      Reaches step unrestricted init (early ++ part) before →
      step before (t, op') = some after →
        after.nextFreeTicket = before.nextFreeTicket ∧
          after.ownerTicket = before.ownerTicket := by
  rcases reached.around with ⟨outside, start, first, _, call, during⟩
  rcases reaches_snoc.mp during with ⟨last, toLast, _, taken⟩
  rcases refused_read test taken refused with ⟨waiting, stale⟩
  have called : start.pc t = .tryLock := by
    rcases guarded_eq_some.mp call with ⟨_, rfl⟩
    exact Function.update_self ..
  have wide : 0 < w := by
    have someone := Fintype.card_pos_iff.mpr ⟨t⟩
    by_contra narrow
    simp [Nat.eq_zero_of_not_pos narrow] at few
    omega
  -- Up to its last load the call stays between its loads.
  have within : ∀ part s', part <+: span → Reaches step unrestricted start part s' →
      loading (s'.pc t) = true := by
    rintro part s' ⟨rest, rfl⟩ toPart
    rcases toLast.split with ⟨middle, toMiddle, onwards⟩
    cases toMiddle.deterministic toPart
    refine loading_since (onwards.admitting fun label member same => ?_) waiting
    exact oneCall (same ▸ List.mem_append_right part member)
  constructor
  · by_contra never
    apply stale
    refine freshRead_since wide called toLast fun part s' shorter toPart => ?_
    by_contra apart
    have whole := first.append (.cons _ trivial call toPart)
    rcases served_thread few.le whole apart with ⟨u, served⟩
    refine never ⟨part, s', shorter, whole, apart, u, ?_, served⟩
    rintro rfl
    have loads := within part s' shorter toPart
    cases here : s'.pc u <;> simp [here, loading, Pc.ticket] at loads served
  · intro part op' rest before after split toBefore moved
    cases part with
    | nil =>
        obtain ⟨⟨rfl, rfl⟩, _⟩ := List.cons.inj split
        rcases guarded_eq_some.mp moved with ⟨_, rfl⟩
        exact ⟨rfl, rfl⟩
    | cons head part =>
        rw [List.cons_append, List.cons.injEq] at split
        obtain ⟨rfl, tails⟩ := split
        rcases toBefore.around with ⟨_, start', first', _, call', toPart⟩
        cases first'.deterministic first
        cases call.symm.trans call'
        have lengths := congrArg List.length tails
        simp only [List.length_append, List.length_cons, List.length_nil] at lengths
        have shorter : part <+: span :=
          List.prefix_of_prefix_length_le ⟨_, tails.symm⟩ (List.prefix_append span _) (by omega)
        exact loading_counters (within part before shorter toPart) moved

/-- Thread 1 reads `owner_ticket_` before thread 0 locks, and `next_free_ticket_` after
thread 0 has unlocked: it fails on a free lock, which was held in between. -/
theorem try_lock_not_spurious_held_between : ∃ (span : List (Fin 2 × Op)) (s : State 2 (Fin 2)),
    run step init ([] ++ (1, .callTryLock) :: (span ++ [(1, .loadNext)])) = some s ∧
      s.ownerTicket = s.nextFreeTicket ∧ s.pc 1 = .outside ∧
      ∃ part, ∃ s' : State 2 (Fin 2), part <+: span ∧
        Reaches step unrestricted init ([] ++ (1, .callTryLock) :: part) s' ∧
        s'.ownerTicket ≠ s'.nextFreeTicket ∧
        ∃ u, u ≠ 1 ∧ (s'.pc u).ticket = some s'.ownerTicket := by
  have ran : run step (init : State 2 (Fin 2))
      ([] ++ (1, .callTryLock) :: ([(1, .loadOwnerFirst), (0, .callLock), (0, .fetchAdd),
        (0, .enter), (0, .unlock)] ++ [(1, .loadNext)])) = some _ := rfl
  have owned := try_lock_not_spurious (by decide) (run_free ran) (by decide) (Or.inr rfl) rfl
  exact ⟨_, _, ran, rfl, rfl, owned.1⟩

end Refusal
end ConcurrencyCourse.TryLock
