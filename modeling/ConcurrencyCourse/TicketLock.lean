import ConcurrencyCourse.FifoLock
import ConcurrencyCourse.Headcount
import ConcurrencyCourse.Fairness

/-!
`TicketLock` of tasks/mutex/try-lock/ticket_lock.hpp with tickets of any width.
One label per atomic operation; the loop `while (ticket != owner_ticket_.load())`
has the label `spin` for a load that reads another ticket and `enter` for the one
that reads this thread's. The two loads of TryLock come in either order, which
C++ leaves open.
-/

namespace ConcurrencyCourse.TicketLock

open Interleaving

/-- `tried` marks the calls of Lock that TryLock makes. -/
inductive Pc (w : ℕ) where
  | outside
  | fetchAdd (tried : Bool)
  | spin (tried : Bool) (thisThreadTicket : BitVec w)
  | critical (thisThreadTicket : BitVec w)
  | tryLock
  | tryOwner (next : BitVec w)
  | tryNext (owner : BitVec w)
  deriving DecidableEq

inductive Op where
  | callLock
  | callTryLock
  | fetchAdd
  | spin
  | enter
  | loadNextFirst
  | loadOwnerFirst
  | loadOwner
  | loadNext
  | unlock
  deriving DecidableEq

structure State (w : ℕ) (Thread : Type) where
  nextFreeTicket : BitVec w
  ownerTicket : BitVec w
  pc : Thread → Pc w

variable {w : ℕ} {Thread : Type}

def init : State w Thread := { nextFreeTicket := 0, ownerTicket := 0, pc := fun _ => .outside }

def afterTest (isFreeLock : Bool) : Pc w := if isFreeLock then .fetchAdd true else .outside

section Step
variable [DecidableEq Thread]

def step (s : State w Thread) : Thread × Op → Option (State w Thread)
  | (t, .callLock) => guarded (s.pc t = .outside)
      { s with pc := Function.update s.pc t (.fetchAdd false) }
  | (t, .callTryLock) => guarded (s.pc t = .outside)
      { s with pc := Function.update s.pc t .tryLock }
  | (t, .loadNextFirst) => guarded (s.pc t = .tryLock)
      { s with pc := Function.update s.pc t (.tryOwner s.nextFreeTicket) }
  | (t, .loadOwnerFirst) => guarded (s.pc t = .tryLock)
      { s with pc := Function.update s.pc t (.tryNext s.ownerTicket) }
  | (t, .loadOwner) => match s.pc t with
      | .tryOwner next =>
          some { s with pc := Function.update s.pc t (afterTest (next == s.ownerTicket)) }
      | _ => none
  | (t, .loadNext) => match s.pc t with
      | .tryNext owner =>
          some { s with pc := Function.update s.pc t (afterTest (s.nextFreeTicket == owner)) }
      | _ => none
  | (t, .fetchAdd) => match s.pc t with
      | .fetchAdd tried => some
          { s with
            nextFreeTicket := s.nextFreeTicket + 1
            pc := Function.update s.pc t (.spin tried s.nextFreeTicket) }
      | _ => none
  | (t, .spin) => match s.pc t with
      | .spin _ ticket => guarded (ticket ≠ s.ownerTicket) s
      | _ => none
  | (t, .enter) => match s.pc t with
      | .spin _ ticket => guarded (ticket = s.ownerTicket)
          { s with pc := Function.update s.pc t (.critical ticket) }
      | _ => none
  | (t, .unlock) => match s.pc t with
      | .critical _ => some
          { s with
            ownerTicket := s.ownerTicket + 1
            pc := Function.update s.pc t .outside }
      | _ => none

variable {s after : State w Thread} {t : Thread}

theorem loadOwner_step (taken : step s (t, .loadOwner) = some after) :
    ∃ next, s.pc t = .tryOwner next ∧
      after = { s with pc := Function.update s.pc t (afterTest (next == s.ownerTicket)) } := by
  cases here : s.pc t <;> simp only [step, here, reduceCtorEq, Option.some.injEq] at taken
  exact ⟨_, rfl, taken.symm⟩

theorem loadNext_step (taken : step s (t, .loadNext) = some after) :
    ∃ owner, s.pc t = .tryNext owner ∧
      after = { s with pc := Function.update s.pc t (afterTest (s.nextFreeTicket == owner)) } := by
  cases here : s.pc t <;> simp only [step, here, reduceCtorEq, Option.some.injEq] at taken
  exact ⟨_, rfl, taken.symm⟩

theorem fetchAdd_step (taken : step s (t, .fetchAdd) = some after) :
    ∃ tried, s.pc t = .fetchAdd tried ∧ after =
      { s with
        nextFreeTicket := s.nextFreeTicket + 1
        pc := Function.update s.pc t (.spin tried s.nextFreeTicket) } := by
  cases here : s.pc t <;> simp only [step, here, reduceCtorEq, Option.some.injEq] at taken
  exact ⟨_, rfl, taken.symm⟩

theorem spin_step (taken : step s (t, .spin) = some after) :
    ∃ tried ticket, s.pc t = .spin tried ticket ∧ ticket ≠ s.ownerTicket ∧ after = s := by
  cases here : s.pc t <;> simp only [step, here, reduceCtorEq, guarded_eq_some] at taken
  exact ⟨_, _, rfl, taken.1, taken.2.symm⟩

theorem enter_step (taken : step s (t, .enter) = some after) :
    ∃ tried, s.pc t = .spin tried s.ownerTicket ∧
      after = { s with pc := Function.update s.pc t (.critical s.ownerTicket) } := by
  cases here : s.pc t <;> simp only [step, here, reduceCtorEq, guarded_eq_some] at taken
  rcases taken with ⟨rfl, rfl⟩
  exact ⟨_, rfl, rfl⟩

theorem unlock_step (taken : step s (t, .unlock) = some after) :
    ∃ ticket, s.pc t = .critical ticket ∧ after =
      { s with
        ownerTicket := s.ownerTicket + 1
        pc := Function.update s.pc t .outside } := by
  cases here : s.pc t <;> simp only [step, here, reduceCtorEq, Option.some.injEq] at taken
  exact ⟨_, rfl, taken.symm⟩

end Step

def Pc.ticket : Pc w → Option (BitVec w)
  | .spin _ ticket => some ticket
  | .critical ticket => some ticket
  | _ => none

def Pc.inCritical : Pc w → Bool
  | .critical _ => true
  | _ => false

/-! The lock refines the fair lock: taking a ticket is queueing, and the ticket
holders in the order of the line are numbered from `owner_ticket_`. -/
section Refinement

def observe : Thread × Op → Option (FifoLock.Event Thread)
  | (t, .fetchAdd) => some (.enqueue t)
  | (t, .enter) => some (.enter t)
  | (t, .unlock) => some (.leave t)
  | _ => none

structure Represents (s : State w Thread) (line : FifoLock.Line Thread) : Prop where
  numbered : FifoLock.Numbered (Pc.ticket ∘ s.pc) s.ownerTicket line.waiting
  next : s.nextFreeTicket = s.ownerTicket + BitVec.ofNat w line.waiting.length
  critical : ∀ t, (s.pc t).inCritical = true ↔ line.owner = some t

theorem line_length [Fintype Thread] (line : FifoLock.Line Thread) :
    line.waiting.length ≤ Fintype.card Thread :=
  line.distinct.length_le_card

variable [DecidableEq Thread]

theorem represents_move {s : State w Thread} {line : FifoLock.Line Thread} {t : Thread}
    {pc' : Pc w} (represents : Represents s line) (same : pc'.ticket = (s.pc t).ticket)
    (section' : pc'.inCritical = (s.pc t).inCritical) :
    Represents { s with pc := Function.update s.pc t pc' } line := by
  constructor
  · have tickets : Pc.ticket ∘ Function.update s.pc t pc' = Pc.ticket ∘ s.pc := by
      rw [Function.comp_update, same]
      exact Function.update_eq_self t (Pc.ticket ∘ s.pc)
    rw [tickets]
    exact represents.numbered
  · exact represents.next
  · intro u
    rw [← represents.critical u]
    by_cases self : u = t
    · simp [self, section']
    · simp [self]

variable {s after : State w Thread} {line : FifoLock.Line Thread} {t : Thread}

theorem fetchAdd_enqueues (represents : Represents s line)
    (taken : step s (t, .fetchAdd) = some after) :
    ∃ next, FifoLock.step line (.enqueue t) = some next ∧ Represents after next := by
  rcases fetchAdd_step taken with ⟨tried, here, rfl⟩
  have fresh : t ∉ line.waiting := by
    rw [← represents.numbered.holders t]
    simp [here, Pc.ticket]
  rcases FifoLock.step_enqueue line fresh with ⟨next, queued, stands, same⟩
  refine ⟨next, queued, ?_, ?_, ?_⟩
  · rw [Function.comp_update, stands]
    simpa [Pc.ticket, ← represents.next] using FifoLock.numbered_enqueue represents.numbered fresh
  · simp [stands, represents.next, BitVec.ofNat_add, BitVec.add_assoc]
  · intro u
    rw [same, ← represents.critical u]
    by_cases self : u = t
    · simp [self, here, Pc.inCritical]
    · simp [self]

theorem unlock_leaves (represents : Represents s line)
    (taken : step s (t, .unlock) = some after) :
    ∃ next, FifoLock.step line (.leave t) = some next ∧ Represents after next := by
  rcases unlock_step taken with ⟨ticket, here, rfl⟩
  have inside : line.owner = some t :=
    (represents.critical t).mp (by simp [here, Pc.inCritical])
  rcases FifoLock.step_leave line inside with ⟨next, left, stands, owner⟩
  refine ⟨next, left, ?_, ?_, ?_⟩
  · rw [Function.comp_update]
    have numbered := represents.numbered
    have distinct := line.distinct
    rw [stands] at numbered distinct
    exact FifoLock.numbered_leave numbered distinct
  · rw [represents.next, stands, List.length_cons, BitVec.ofNat_add, BitVec.add_assoc,
      BitVec.add_comm (BitVec.ofNat w _)]
    rfl
  · intro u
    rw [owner]
    by_cases self : u = t
    · simp [self, Pc.inCritical]
    · have outside : (s.pc u).inCritical = false := by
        rw [Bool.eq_false_iff, Ne, represents.critical u, inside]
        simpa using Ne.symm self
      simp [self, outside]

variable [Fintype Thread]

theorem enter_enters (represents : Represents s line) (few : Fintype.card Thread ≤ 2 ^ w)
    (taken : step s (t, .enter) = some after) :
    ∃ next, FifoLock.step line (.enter t) = some next ∧ Represents after next := by
  rcases enter_step taken with ⟨tried, here, rfl⟩
  have short := (line_length line).trans few
  have front : line.waiting.head? = some t :=
    FifoLock.first_ticket represents.numbered short (by simp [here, Pc.ticket])
  have idle : line.owner = none := by
    by_contra busy
    rcases Option.ne_none_iff_exists'.mp busy with ⟨u, inside⟩
    -- A thread inside stands first as well, so it would be the one that spins.
    have same : u = t := by
      have front' := (FifoLock.owner_some line inside).1
      exact Option.some.inj (front'.symm.trans front)
    have critical := (represents.critical u).mpr inside
    simp [same, here, Pc.inCritical] at critical
  rcases FifoLock.step_enter line front idle with ⟨next, entered, stands, owner⟩
  refine ⟨next, entered, ?_, ?_, ?_⟩
  · have tickets : Pc.ticket ∘ Function.update s.pc t (.critical s.ownerTicket) =
        Pc.ticket ∘ s.pc := by
      rw [Function.comp_update]
      exact Function.update_eq_self_iff.mpr (by simp [here, Pc.ticket])
    rw [tickets, stands]
    exact represents.numbered
  · simpa [stands] using represents.next
  · intro u
    rw [owner]
    by_cases self : u = t
    · simp [self, Pc.inCritical]
    · have outside : (s.pc u).inCritical = false := by
        rw [Bool.eq_false_iff, Ne, represents.critical u, idle]
        simp
      simp [self, outside, Ne.symm self]

theorem lock_square (few : Fintype.card Thread ≤ 2 ^ w) (label : Thread × Op)
    (represents : Represents s line) (taken : step s label = some after) :
    (observe label = none ∧ Represents after line) ∨
      ∃ visible next, observe label = some visible ∧ FifoLock.step line visible = some next ∧
        Represents after next := by
  rcases label with ⟨t, op⟩
  cases op with
  | callLock | callTryLock | loadNextFirst | loadOwnerFirst =>
      rcases guarded_eq_some.mp taken with ⟨here, rfl⟩
      exact Or.inl ⟨rfl, represents_move represents (by simp [here, Pc.ticket])
        (by simp [here, Pc.inCritical])⟩
  -- The loads of TryLock move neither a ticket nor the line.
  | loadOwner =>
      rcases loadOwner_step taken with ⟨next, here, rfl⟩
      refine Or.inl ⟨rfl, represents_move represents ?_ ?_⟩
      · rw [here]; unfold afterTest; split <;> rfl
      · rw [here]; unfold afterTest; split <;> rfl
  | loadNext =>
      rcases loadNext_step taken with ⟨owner, here, rfl⟩
      refine Or.inl ⟨rfl, represents_move represents ?_ ?_⟩
      · rw [here]; unfold afterTest; split <;> rfl
      · rw [here]; unfold afterTest; split <;> rfl
  | spin =>
      rcases spin_step taken with ⟨_, _, _, _, rfl⟩
      exact Or.inl ⟨rfl, represents⟩
  | fetchAdd => exact Or.inr ⟨_, _, rfl, (fetchAdd_enqueues represents taken).choose_spec⟩
  | enter => exact Or.inr ⟨_, _, rfl, (enter_enters represents few taken).choose_spec⟩
  | unlock => exact Or.inr ⟨_, _, rfl, (unlock_leaves represents taken).choose_spec⟩

theorem lock_refines (few : Fintype.card Thread ≤ 2 ^ w)
    {allowed : State w Thread → Thread × Op → Prop} {trace : List (Thread × Op)}
    (reached : Reaches step allowed init trace s) :
    ∃ line, Reaches FifoLock.step unrestricted FifoLock.empty (trace.filterMap observe) line ∧
      Represents s line := by
  refine reached.simulates observe Represents ⟨⟨?_, ?_⟩, ?_, ?_⟩ ?_
  · intro t
    simp [init, Pc.ticket, FifoLock.empty]
  · intro i t at_i
    simp [FifoLock.empty] at at_i
  · simp [init, FifoLock.empty]
  · intro t
    simp [init, Pc.inCritical, FifoLock.Line.owner, FifoLock.empty]
  · intro s label after line represents _ taken
    exact lock_square few label represents taken

end Refinement

/-! FIFO and exclusion for every run, across any number of wrap-arounds. -/
section Fifo

theorem critical_unique {s : State w Thread} {line : FifoLock.Line Thread}
    (represents : Represents s line) {t : Thread} {k : BitVec w} (here : s.pc t = .critical k) :
    k = s.ownerTicket ∧ ∀ u k', s.pc u = .critical k' → u = t := by
  have inside : line.owner = some t :=
    (represents.critical t).mp (by simp [here, Pc.inCritical])
  constructor
  · have front := (FifoLock.owner_some line inside).1
    have ticket := represents.numbered.position 0 t (by rw [← List.head?_eq_getElem?]; exact front)
    simpa [here, Pc.ticket] using ticket
  · intro u k' there
    have inside' := (represents.critical u).mp (by simp [there, Pc.inCritical])
    exact Option.some.inj (inside'.symm.trans inside)

variable [DecidableEq Thread] [Fintype Thread]

def ticketOrder (trace : List (Thread × Op)) : List Thread :=
  trace.filterMap fun label => if label.2 = .fetchAdd then some label.1 else none

def entryOrder (trace : List (Thread × Op)) : List Thread :=
  trace.filterMap fun label => if label.2 = .enter then some label.1 else none

omit [DecidableEq Thread] [Fintype Thread] in
theorem ticketOrder_observed (trace : List (Thread × Op)) :
    FifoLock.enqueued (trace.filterMap observe) = ticketOrder trace := by
  rw [FifoLock.enqueued, List.filterMap_filterMap, ticketOrder]
  apply List.filterMap_congr
  rintro ⟨t, op⟩ _
  cases op <;> rfl

omit [DecidableEq Thread] [Fintype Thread] in
theorem entryOrder_observed (trace : List (Thread × Op)) :
    FifoLock.entered (trace.filterMap observe) = entryOrder trace := by
  rw [FifoLock.entered, List.filterMap_filterMap, entryOrder]
  apply List.filterMap_congr
  rintro ⟨t, op⟩ _
  cases op <;> rfl

/-- The FIFO lock, for any ticket width and any number of threads below 2^w: one
thread in the critical section, holding `owner_ticket_`; pairwise distinct tickets
that fill the cyclic interval from `owner_ticket_` to `next_free_ticket_`; entry in
ticket order. -/
theorem fifo_mutual_exclusion (few : Fintype.card Thread < 2 ^ w) (trace : List (Thread × Op))
    (s : State w Thread) (reached : Reaches step unrestricted init trace s) :
    (∀ t k, s.pc t = .critical k → k = s.ownerTicket ∧ ∀ u k', s.pc u = .critical k' → u = t) ∧
      (∀ t u k, (s.pc t).ticket = some k → (s.pc u).ticket = some k → t = u) ∧
      (∀ k, (∃ t, (s.pc t).ticket = some k) ↔
        k - s.ownerTicket < s.nextFreeTicket - s.ownerTicket) ∧
      entryOrder trace <+: ticketOrder trace := by
  rcases lock_refines few.le reached with ⟨line, matched, represents⟩
  have short : line.waiting.length < 2 ^ w := (line_length line).trans_lt few
  refine ⟨?_, ?_, ?_, ?_⟩
  · intro t k here
    exact critical_unique represents here
  · intro t u k held held'
    exact FifoLock.tickets_distinct represents.numbered short.le held held'
  · intro k
    rw [represents.next]
    exact FifoLock.tickets_interval represents.numbered short k
  · rw [← ticketOrder_observed, ← entryOrder_observed]
    exact FifoLock.entered_in_order matched

/-- Three threads on two-bit tickets: after five rounds `owner_ticket_` has wrapped to 1,
its holder is inside and the next in line waits with ticket 2. -/
theorem fifo_mutual_exclusion_wrapped : ∃ (trace : List (Fin 3 × Op)) (s : State 2 (Fin 3)),
    run step init trace = some s ∧ s.pc 0 = .critical 1 ∧ s.pc 1 = .spin false 2 ∧
      (∀ k, (∃ t, (s.pc t).ticket = some k) ↔
        k - s.ownerTicket < s.nextFreeTicket - s.ownerTicket) ∧
      entryOrder trace <+: ticketOrder trace := by
  have ran : run step (init : State 2 (Fin 3))
      ((List.replicate 5 [(2, .callLock), (2, .fetchAdd), (2, .enter), (2, .unlock)]).flatten ++
        [(0, .callLock), (0, .fetchAdd), (1, .callLock), (1, .fetchAdd), (0, .enter)]) =
      some _ := rfl
  have fifo := fifo_mutual_exclusion (by decide) _ _ (run_free ran)
  exact ⟨_, _, ran, rfl, rfl, fifo.2.2⟩

end Fifo

/-! Nobody starves. Each waiting thread is served after the threads before it, and the one
whose ticket is `owner_ticket_` always has a step that brings the line on. -/
section Starvation
open Fairness
variable [DecidableEq Thread]

/-- The steps of a thread inside a call, and of one that has the lock. -/
def owes (t : Thread) (_ : State w Thread) (label : Thread × Op) : Prop :=
  label.1 = t ∧ label.2 ≠ .callLock ∧ label.2 ≠ .callTryLock

theorem inCritical_afterTest (isFreeLock : Bool) :
    (afterTest isFreeLock : Pc w).inCritical = false := by
  cases isFreeLock <;> rfl

section Steps
variable {s after : State w Thread} {t : Thread} {label : Thread × Op}

theorem pc_elsewhere (taken : step s label = some after) (other : label.1 ≠ t) :
    after.pc t = s.pc t := by
  obtain ⟨v, op⟩ := label
  have different : t ≠ v := Ne.symm other
  cases op with
  | callLock | callTryLock | loadNextFirst | loadOwnerFirst =>
      rcases guarded_eq_some.mp taken with ⟨-, rfl⟩
      simp [different]
  | loadOwner =>
      rcases loadOwner_step taken with ⟨_, -, rfl⟩
      simp [different]
  | loadNext =>
      rcases loadNext_step taken with ⟨_, -, rfl⟩
      simp [different]
  | fetchAdd =>
      rcases fetchAdd_step taken with ⟨_, -, rfl⟩
      simp [different]
  | spin =>
      rcases spin_step taken with ⟨_, _, _, _, rfl⟩
      rfl
  | enter =>
      rcases enter_step taken with ⟨_, -, rfl⟩
      simp [different]
  | unlock =>
      rcases unlock_step taken with ⟨_, -, rfl⟩
      simp [different]

end Steps

def ahead (s : State w Thread) (k : BitVec w) : ℕ := (k - s.ownerTicket).toNat

omit [DecidableEq Thread] in
theorem ahead_served {s after : State w Thread} {k : BitVec w} (later : k ≠ s.ownerTicket)
    (served : after.ownerTicket = s.ownerTicket + 1) : ahead after k + 1 = ahead s k := by
  have apart : k - s.ownerTicket ≠ 0#w := by
    intro zero
    have same := congrArg (· + s.ownerTicket) zero
    exact later (by simpa [BitVec.sub_add_cancel] using same)
  have positive : 0 < (k - s.ownerTicket).toNat := by
    rw [Nat.pos_iff_ne_zero]
    intro zero
    exact apart (BitVec.eq_of_toNat_eq (by simpa using zero))
  have wide : 1 < 2 ^ w := lt_of_le_of_lt positive (k - s.ownerTicket).isLt
  have one : (1 : BitVec w).toNat = 1 := by simp [Nat.mod_eq_of_lt wide]
  rw [ahead, ahead, served, ← BitVec.sub_sub,
    BitVec.toNat_sub_of_le (by rw [BitVec.le_def, one]; exact positive), one]
  omega

section Turns
variable [Fintype Thread]

/-- Two stages for each thread before: it spins, then it is inside. -/
def stage (k : BitVec w) (s : State w Thread) : ℕ :=
  2 * ahead s k + if ∃ u, (s.pc u).inCritical = true then 0 else 1

def Waits (t : Thread) (tried : Bool) (k : BitVec w) (s : State w Thread) : Prop :=
  s.pc t = .spin tried k ∧ ∃ line, Represents s line

def Served (u : Thread) (s : State w Thread) : Prop := (s.pc u).ticket = some s.ownerTicket

variable {s after : State w Thread} {t u : Thread} {tried : Bool} {k : BitVec w}
  {label : Thread × Op}

omit [DecidableEq Thread] in
theorem Waits.distinct (waits : Waits t tried k s) (few : Fintype.card Thread < 2 ^ w)
    {v v' : Thread} {k' : BitVec w} (first : (s.pc v).ticket = some k')
    (second : (s.pc v').ticket = some k') : v = v' := by
  obtain ⟨-, line, represents⟩ := waits
  exact FifoLock.tickets_distinct represents.numbered ((line_length line).trans few.le) first second

omit [DecidableEq Thread] [Fintype Thread] in
theorem Waits.someone (waits : Waits t tried k s) : ∃ u, Served u s := by
  obtain ⟨here, line, represents⟩ := waits
  have member : t ∈ line.waiting := (represents.numbered.holders t).mp (by simp [here, Pc.ticket])
  obtain ⟨first, rest, stands⟩ := List.exists_cons_of_ne_nil (List.ne_nil_of_mem member)
  refine ⟨first, ?_⟩
  have ticket := represents.numbered.position 0 first (by simp [stands])
  simpa [Served] using ticket

omit [Fintype Thread] in
theorem Served.ready (served : Served u s) : Ready step owes u s := by
  cases here : s.pc u with
  | outside | fetchAdd | tryLock | tryOwner | tryNext => simp [Served, here, Pc.ticket] at served
  | spin tried ticket =>
      have mine : ticket = s.ownerTicket := by simpa [Served, here, Pc.ticket] using served
      exact ⟨(u, .enter), ⟨rfl, by simp, by simp⟩, by simp [step, here, mine]⟩
  | critical ticket => exact ⟨(u, .unlock), ⟨rfl, by simp, by simp⟩, by simp [step, here]⟩

theorem represents_kept (few : Fintype.card Thread < 2 ^ w)
    (before : ∃ line, Represents s line) (taken : step s label = some after) :
    ∃ line, Represents after line := by
  obtain ⟨line, represents⟩ := before
  rcases lock_square few.le label represents taken with
    ⟨-, still⟩ | ⟨visible, next, -, -, still⟩
  · exact ⟨line, still⟩
  · exact ⟨next, still⟩

theorem Waits.still (waits : Waits t tried k s) (few : Fintype.card Thread < 2 ^ w)
    (taken : step s label = some after) (owner : after.ownerTicket = s.ownerTicket)
    (holds : (s.pc label.1).ticket = none) (inside : (after.pc label.1).inCritical = false)
    (served : Served u s) :
    Waits t tried k after ∧ stage k after = stage k s ∧ Served u after ∧ ¬ owes u s label := by
  have apart (v : Thread) (k' : BitVec w) (ticket : (s.pc v).ticket = some k') : label.1 ≠ v := by
    rintro rfl
    simp [holds] at ticket
  have outside : (s.pc label.1).inCritical = false := by
    cases here : s.pc label.1 <;> simp_all [Pc.ticket, Pc.inCritical]
  have same (v : Thread) : (after.pc v).inCritical = (s.pc v).inCritical := by
    by_cases self : label.1 = v
    · rw [← self, inside, outside]
    · rw [pc_elsewhere taken self]
  obtain ⟨here, line⟩ := waits
  refine ⟨⟨?_, represents_kept few line taken⟩, ?_, ?_, ?_⟩
  · rw [pc_elsewhere taken (apart t k (by simp [here, Pc.ticket])), here]
  · simp only [stage, ahead, owner, same]
  · rw [Served, pc_elsewhere taken (apart u _ served), owner]
    exact served
  · rintro ⟨mine, -⟩
    exact apart u _ served mine

/-- Every step keeps the thread waiting or lets it in, and those of the thread whose turn
it is bring the line on. -/
theorem waits_measure (few : Fintype.card Thread < 2 ^ w) (t : Thread) (tried : Bool)
    (k : BitVec w) :
    Measure step owes (Waits t tried k) (fun s => ∃ k, s.pc t = .critical k) (stage k) Served := by
  refine ⟨fun s waits => waits.someone, fun s u _ served => served.ready, ?_⟩
  intro s u label after waits served taken
  have line' := represents_kept few waits.2 taken
  have mine : (s.pc t).ticket = some k := by rw [waits.1]; rfl
  obtain ⟨v, op⟩ := label
  cases op with
  | callLock | callTryLock | loadNextFirst | loadOwnerFirst =>
      rcases guarded_eq_some.mp taken with ⟨here, rfl⟩
      obtain ⟨again, level, still, other⟩ := waits.still few taken rfl
        (by simp [here, Pc.ticket]) (by simp [Pc.inCritical]) served
      exact .inr ⟨again, .inr ⟨level, still, other⟩⟩
  | loadOwner =>
      rcases loadOwner_step taken with ⟨next, here, rfl⟩
      obtain ⟨again, level, still, other⟩ := waits.still few taken rfl
        (by simp [here, Pc.ticket]) (by simp [inCritical_afterTest]) served
      exact .inr ⟨again, .inr ⟨level, still, other⟩⟩
  | loadNext =>
      rcases loadNext_step taken with ⟨owner, here, rfl⟩
      obtain ⟨again, level, still, other⟩ := waits.still few taken rfl
        (by simp [here, Pc.ticket]) (by simp [inCritical_afterTest]) served
      exact .inr ⟨again, .inr ⟨level, still, other⟩⟩
  | fetchAdd =>
      rcases fetchAdd_step taken with ⟨tried', here, rfl⟩
      obtain ⟨again, level, still, other⟩ := waits.still few taken rfl
        (by simp [here, Pc.ticket]) (by simp [Pc.inCritical]) served
      exact .inr ⟨again, .inr ⟨level, still, other⟩⟩
  | spin =>
      rcases spin_step taken with ⟨tried', ticket, here, behind, rfl⟩
      refine .inr ⟨waits, .inr ⟨rfl, served, ?_⟩⟩
      rintro ⟨rfl, -⟩
      exact behind (by simpa [Served, here, Pc.ticket] using served)
  | enter =>
      rcases enter_step taken with ⟨tried', here, rfl⟩
      by_cases self : t = v
      · exact .inl ⟨s.ownerTicket, by simp [self]⟩
      · refine .inr ⟨⟨by simpa [self] using waits.1, line'⟩, .inl ?_⟩
        -- The ticket of a thread inside is `owner_ticket_` too, so nobody was inside.
        have nobody : ¬ ∃ u, (s.pc u).inCritical = true := by
          rintro ⟨u, inside⟩
          cases stands : s.pc u with
          | critical ticket =>
              obtain ⟨line, represents⟩ := waits.2
              have same := (critical_unique represents stands).1
              have equal := waits.distinct few (by rw [stands, same]; rfl) (by rw [here]; rfl)
              simp [equal, here] at stands
          | _ => simp [stands, Pc.inCritical] at inside
        have somebody :
            ∃ u, (Function.update s.pc v (.critical s.ownerTicket) u).inCritical = true :=
          ⟨v, by simp [Pc.inCritical]⟩
        simp only [stage, ahead, if_neg nobody, if_pos somebody]
        omega
  | unlock =>
      rcases unlock_step taken with ⟨ticket, here, rfl⟩
      obtain ⟨line, represents⟩ := waits.2
      have owner := (critical_unique represents here).1
      have self : t ≠ v := by
        rintro rfl
        simp [waits.1] at here
      have later : k ≠ s.ownerTicket := by
        rintro rfl
        exact self (waits.distinct few mine (by rw [here, owner]; rfl))
      refine .inr ⟨⟨by simpa [self] using waits.1, line'⟩, .inl ?_⟩
      have inside : ∃ u, (s.pc u).inCritical = true := ⟨v, by rw [here]; rfl⟩
      have less : ahead
          { s with
            ownerTicket := s.ownerTicket + 1
            pc := Function.update s.pc v .outside } k + 1 = ahead s k :=
        ahead_served later rfl
      simp only [stage, if_pos inside]
      split <;> omega

end Turns

inductive Goes : Pc w → Pc w → Prop where
  | locks : Goes .outside (.fetchAdd false)
  | tries : Goes .outside .tryLock
  | loadedNext (next : BitVec w) : Goes .tryLock (.tryOwner next)
  | loadedOwner (owner : BitVec w) : Goes .tryLock (.tryNext owner)
  | testedOwner (next : BitVec w) (isFreeLock : Bool) : Goes (.tryOwner next) (afterTest isFreeLock)
  | testedNext (owner : BitVec w) (isFreeLock : Bool) : Goes (.tryNext owner) (afterTest isFreeLock)
  | fetched (tried : Bool) (ticket : BitVec w) : Goes (.fetchAdd tried) (.spin tried ticket)
  | spins (tried : Bool) (ticket : BitVec w) : Goes (.spin tried ticket) (.spin tried ticket)
  | enters (tried : Bool) (ticket : BitVec w) : Goes (.spin tried ticket) (.critical ticket)
  | unlocks (ticket : BitVec w) : Goes (.critical ticket) .outside

section Calls
variable {s after : State w Thread} {t : Thread} {op : Op}

theorem goes_step (taken : step s (t, op) = some after) : Goes (s.pc t) (after.pc t) := by
  cases op with
  | callLock =>
      rcases guarded_eq_some.mp taken with ⟨here, rfl⟩
      simpa [here] using Goes.locks
  | callTryLock =>
      rcases guarded_eq_some.mp taken with ⟨here, rfl⟩
      simpa [here] using Goes.tries
  | loadNextFirst =>
      rcases guarded_eq_some.mp taken with ⟨here, rfl⟩
      simpa [here] using Goes.loadedNext _
  | loadOwnerFirst =>
      rcases guarded_eq_some.mp taken with ⟨here, rfl⟩
      simpa [here] using Goes.loadedOwner _
  | loadOwner =>
      rcases loadOwner_step taken with ⟨next, here, rfl⟩
      simpa [here] using Goes.testedOwner next _
  | loadNext =>
      rcases loadNext_step taken with ⟨owner, here, rfl⟩
      simpa [here] using Goes.testedNext owner _
  | fetchAdd =>
      rcases fetchAdd_step taken with ⟨tried, here, rfl⟩
      simpa [here] using Goes.fetched tried _
  | spin =>
      rcases spin_step taken with ⟨tried, ticket, here, -, rfl⟩
      simpa [here] using Goes.spins tried ticket
  | enter =>
      rcases enter_step taken with ⟨tried, here, rfl⟩
      simpa [here] using Goes.enters tried _
  | unlock =>
      rcases unlock_step taken with ⟨ticket, here, rfl⟩
      simpa [here] using Goes.unlocks ticket

theorem inside_ready (inside : s.pc t ≠ .outside) : Ready step owes t s := by
  cases here : s.pc t with
  | outside => exact absurd here inside
  | fetchAdd => exact ⟨(t, .fetchAdd), ⟨rfl, by simp, by simp⟩, by simp [step, here]⟩
  | tryLock =>
      exact ⟨(t, .loadNextFirst), ⟨rfl, by simp, by simp⟩, by simp [step, guarded, here]⟩
  | tryOwner => exact ⟨(t, .loadOwner), ⟨rfl, by simp, by simp⟩, by simp [step, here]⟩
  | tryNext => exact ⟨(t, .loadNext), ⟨rfl, by simp, by simp⟩, by simp [step, here]⟩
  | critical => exact ⟨(t, .unlock), ⟨rfl, by simp, by simp⟩, by simp [step, here]⟩
  | spin tried ticket =>
      by_cases mine : ticket = s.ownerTicket
      · exact ⟨(t, .enter), ⟨rfl, by simp, by simp⟩, by simp [step, here, mine]⟩
      · exact ⟨(t, .spin), ⟨rfl, by simp, by simp⟩, by simp [step, here, mine]⟩

variable {e : Execution step (init : State w Thread)}

theorem leaves_place (fair : e.Fair owes) (t : Thread) (place next : Pc w → Prop)
    (inside : ∀ pc, place pc → pc ≠ .outside) (left : ∀ pc pc', place pc → Goes pc pc' → next pc') :
    e.LeadsTo (fun s => place (s.pc t)) fun s => next (s.pc t) := by
  refine Execution.leadsTo_by fair t (fun s here => inside_ready (inside _ here)) ?_
  rintro s ⟨v, op⟩ after here taken
  by_cases self : v = t
  · subst self
    exact .inl (left _ _ here (goes_step taken))
  · refine .inr ⟨?_, fun owed => self owed.1⟩
    rw [pc_elsewhere taken self]
    exact here

end Calls

variable [Fintype Thread]

/-- Starvation freedom under weak fairness: a thread inside Lock gets the lock, and every
call of Lock and TryLock comes to its end, for any number of threads below 2^w and across
wrap-arounds of the tickets. -/
theorem starvation_free (few : Fintype.card Thread < 2 ^ w)
    (e : Execution step (init : State w Thread)) (fair : e.Fair owes) (t : Thread) :
    e.LeadsTo (fun s => (∃ tried, s.pc t = .fetchAdd tried) ∨ ∃ tried k, s.pc t = .spin tried k)
      (fun s => ∃ k, s.pc t = .critical k) ∧
    e.LeadsTo (fun s => s.pc t ≠ .outside) fun s => s.pc t = .outside := by
  have represented (n : ℕ) : ∃ line, Represents (e.state n) line := by
    obtain ⟨trace, reached⟩ := e.reaches n
    obtain ⟨line, -, represents⟩ := lock_refines few.le reached
    exact ⟨line, represents⟩
  have served : e.LeadsTo (fun s => ∃ tried k, s.pc t = .spin tried k)
      fun s => ∃ k, s.pc t = .critical k := by
    rintro n ⟨tried, k, here⟩
    exact (waits_measure few t tried k).leadsTo fair n ⟨here, represented n⟩
  have queued : e.LeadsTo (fun s => ∃ tried, s.pc t = .fetchAdd tried)
      fun s => ∃ tried k, s.pc t = .spin tried k := by
    refine leaves_place fair t (fun pc => ∃ tried, pc = .fetchAdd tried)
      (fun pc => ∃ tried k, pc = .spin tried k) ?_ ?_
    · rintro pc ⟨tried, rfl⟩
      simp
    · rintro pc pc' ⟨tried, rfl⟩ goes
      cases goes
      exact ⟨_, _, rfl⟩
  have released : e.LeadsTo (fun s => ∃ k, s.pc t = .critical k) fun s => s.pc t = .outside := by
    refine leaves_place fair t (fun pc => ∃ k, pc = .critical k) (fun pc => pc = .outside) ?_ ?_
    · rintro pc ⟨k, rfl⟩
      simp
    · rintro pc pc' ⟨k, rfl⟩ goes
      cases goes
      rfl
  have locked := (queued.through served).either served
  have tested : e.LeadsTo (fun s => (∃ next, s.pc t = .tryOwner next) ∨
      ∃ owner, s.pc t = .tryNext owner) fun s => s.pc t = .outside := by
    have tests := leaves_place fair t
      (fun pc => (∃ next, pc = .tryOwner next) ∨ ∃ owner, pc = .tryNext owner)
      (fun pc => pc = .outside ∨ ∃ tried, pc = .fetchAdd tried) ?_ ?_
    · exact tests.through ((Execution.LeadsTo.arrived fun _ there => there).either
        ((queued.through served).through released))
    · rintro pc (⟨next, rfl⟩ | ⟨owner, rfl⟩) <;> simp
    · rintro pc pc' (⟨next, rfl⟩ | ⟨owner, rfl⟩) goes <;> cases goes <;>
        rename_i isFreeLock <;> cases isFreeLock <;> simp [afterTest]
  have loaded : e.LeadsTo (fun s => s.pc t = .tryLock) fun s =>
      (∃ next, s.pc t = .tryOwner next) ∨ ∃ owner, s.pc t = .tryNext owner := by
    refine leaves_place fair t (fun pc => pc = .tryLock)
      (fun pc => (∃ next, pc = .tryOwner next) ∨ ∃ owner, pc = .tryNext owner) ?_ ?_
    · rintro pc rfl
      simp
    · rintro pc pc' rfl goes
      cases goes <;> simp
  refine ⟨locked, fun n inside => ?_⟩
  cases here : (e.state n).pc t with
  | outside => exact absurd here inside
  | fetchAdd tried => exact locked.through released n (.inl ⟨tried, here⟩)
  | spin tried ticket => exact locked.through released n (.inr ⟨tried, ticket, here⟩)
  | critical ticket => exact released n ⟨ticket, here⟩
  | tryLock => exact loaded.through tested n here
  | tryOwner next => exact tested n (.inl ⟨next, here⟩)
  | tryNext owner => exact tested n (.inr ⟨owner, here⟩)

def bothServed : List (Bool × Op) :=
  [(false, .callLock), (true, .callTryLock), (true, .loadOwnerFirst), (true, .loadNext),
    (true, .fetchAdd), (false, .fetchAdd), (true, .enter), (false, .spin), (true, .unlock),
    (false, .enter), (false, .unlock)]

/-- On two-bit tickets both counters are 0 again after two such rounds, so the two threads
can go on forever. -/
theorem starvation_free_in_turn : ∃ e : Execution step (init : State 2 Bool),
    e.Fair owes ∧ (∀ n, ∃ m, n ≤ m ∧ e.label m = some (true, .callTryLock)) ∧
      e.LeadsTo (fun s => s.pc true ≠ .outside) fun s => s.pc true = .outside := by
  have first : run step (init : State 2 Bool) bothServed = some ⟨2, 2, fun _ => .outside⟩ := by
    have ran : run step (init : State 2 Bool) bothServed = some _ := rfl
    rw [ran, Option.some.injEq, State.mk.injEq]
    refine ⟨rfl, rfl, funext fun t => ?_⟩
    cases t <;> rfl
  have second : run step (⟨2, 2, fun _ => .outside⟩ : State 2 Bool) bothServed = some init := by
    have ran : run step (⟨2, 2, fun _ => .outside⟩ : State 2 Bool) bothServed = some _ := rfl
    rw [ran, init, Option.some.injEq, State.mk.injEq]
    refine ⟨rfl, rfl, funext fun t => ?_⟩
    cases t <;> rfl
  have around : run step (init : State 2 Bool) (bothServed ++ bothServed) = some init := by
    rw [run_append, first, Option.bind_some, second]
  have fair : (Execution.cycle around (by decide)).Fair owes := by
    rintro t n -
    have member : (t, Op.unlock) ∈ bothServed ++ bothServed := by cases t <;> simp [bothServed]
    obtain ⟨m, later, here⟩ := Execution.cycle_label member n
    exact ⟨m, later, _, here, rfl, by simp, by simp⟩
  exact ⟨_, fair, Execution.cycle_label (by simp [bothServed]),
    (starvation_free (by decide) _ fair true).2⟩

end Starvation
end ConcurrencyCourse.TicketLock
