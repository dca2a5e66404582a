import ConcurrencyCourse.Atomic
import Mathlib.Data.List.Nodup

/-!
Release and Acquire of `stdlike::Atomic` on the buffered machine. All routines are
the plain `movq`; that a Release store publishes what its thread did before comes
from the order of the buffer alone. Every store carries its thread and number, so
that a load says which store it reads.
-/

namespace ConcurrencyCourse.ReleaseAcquire

open Interleaving StoreBuffer Atomic

/-- A value with the store that wrote it, or no store for an initial value. -/
structure Written (Thread Value : Type) where
  value : Value
  writer : Option (Thread × ℕ)
  deriving DecidableEq

abbrev Event (Thread Cell Value : Type) :=
  Thread × Act (Access Cell (Written Thread Value)) Cell (Written Thread Value)

variable {Thread Cell Value : Type}

def IsLoad (event : Event Thread Cell Value) (t : Thread) (mo : MemoryOrder) (cell : Cell)
    (word : Written Thread Value) : Prop :=
  ∃ access, event = (t, .executes access) ∧ access.operation = .load mo cell word

def IsStore (event : Event Thread Cell Value) (t : Thread) (mo : MemoryOrder) (cell : Cell)
    (word : Written Thread Value) : Prop :=
  ∃ access, event = (t, .executes access) ∧ access.operation = .store mo cell word

/-- The writes in a thread's past: its own stores, what its Acquire loads read, and
through a Release store that they read, the past of that store. -/
inductive Past : List (Event Thread Cell Value) → Thread → Cell → Written Thread Value → Prop where
  | issued {early late : List (Event Thread Cell Value)} {event : Event Thread Cell Value}
      {t : Thread} {mo : MemoryOrder} {cell : Cell} {word : Written Thread Value}
      (stores : IsStore event t mo cell word) : Past (early ++ event :: late) t cell word
  | observed {early late : List (Event Thread Cell Value)} {event : Event Thread Cell Value}
      {t : Thread} {cell : Cell} {word : Written Thread Value}
      (loads : IsLoad event t .acquire cell word) : Past (early ++ event :: late) t cell word
  | published {first middle late : List (Event Thread Cell Value)}
      {release event : Event Thread Cell Value} {t u : Thread} {flag cell : Cell}
      {signal word : Written Thread Value} (stores : IsStore release u .release flag signal)
      (loads : IsLoad event t .acquire flag signal) (past : Past first u cell word) :
      Past (first ++ release :: middle ++ event :: late) t cell word

theorem earlier_flushed {gone waiting issued newer : List (Cell × Written Thread Value)}
    {signal : Cell × Written Thread Value} (split : issued ++ signal :: newer = gone ++ waiting)
    (distinct : (issued ++ signal :: newer).Nodup) (flushed : signal ∈ gone) :
    ∀ store ∈ issued, store ∈ gone := by
  intro store member
  rcases List.append_eq_append_iff.mp split with ⟨rest, rfl, -⟩ | ⟨rest, rfl, -⟩
  · exact List.mem_append_left _ member
  · -- The signal would be among the stores before itself.
    have twice := (List.nodup_append.mp distinct).2.2 signal (List.mem_append_left _ flushed) signal
      List.mem_cons_self
    exact absurd rfl twice

variable [DecidableEq Thread] [DecidableEq Value]

/-- Threads that perform any operations in any order. A thread stands at the number of
its next store. -/
def goes (t : Thread) (number : ℕ) (access : Access Cell (Written Thread Value)) : Option ℕ :=
  match access.operation with
  | .load _ _ _ => some number
  | .store _ _ word => guarded (word.writer = some (t, number)) (number + 1)

def accesses (Thread Cell Value : Type) [DecidableEq Thread] [DecidableEq Value] :
    Program Thread ℕ (Access Cell (Written Thread Value)) Cell (Written Thread Value) :=
  { code := Access.instruction, goes }

def start (initial : Cell → Value) (cell : Cell) : Written Thread Value :=
  { value := initial cell, writer := none }

section Stores
variable {event : Event Thread Cell Value} {t : Thread} {mo : MemoryOrder} {cell : Cell}
  {word : Written Thread Value}

theorem issued_store (stores : IsStore event t mo cell word) :
    issued (accesses Thread Cell Value) t event = some (cell, word) := by
  obtain ⟨access, rfl, stores⟩ := stores
  simp [issued, accesses, access.store_instruction stores, Instruction.stored]

theorem store_of_issued (stored : issued (accesses Thread Cell Value) t event = some (cell, word)) :
    ∃ mo, IsStore event t mo cell word := by
  obtain ⟨u, act⟩ := event
  cases act with
  | flush target written => cases stored
  | executes access =>
      by_cases self : u = t
      · subst self
        cases operation : access.operation with
        | load mo target read =>
            simp [issued, accesses, access.load_instruction operation, Instruction.stored] at stored
        | store mo target stamped =>
            simp [issued, accesses, access.store_instruction operation,
              Instruction.stored] at stored
            exact ⟨mo, access, rfl, by rw [operation, stored.1, stored.2]⟩
      · simp [issued, self] at stored

end Stores

variable [DecidableEq Cell]

def memoryOrder (initial : Cell → Value) (trace : List (Event Thread Cell Value)) (cell : Cell) :
    List (Written Thread Value) :=
  start initial cell :: trace.filterMap (written (accesses Thread Cell Value) cell)

/-- When thread `t` reads `seen` after `trace`, the write `word` is in the memory order
of the cell, and what is read is that write, a later one, or an own store of the
thread that has still to get there. -/
def AtOrAfter (initial : Cell → Value) (trace : List (Event Thread Cell Value)) (t : Thread)
    (cell : Cell) (word seen : Written Thread Value) : Prop :=
  ∃ older newer, memoryOrder initial trace cell = older ++ word :: newer ∧
    (seen = word ∨ seen ∈ newer ∨ seen ∉ memoryOrder initial trace cell ∧
      ∃ event ∈ trace, ∃ mo, IsStore event t mo cell seen)

section Histories
variable {initial : Cell → Value} {trace early late : List (Event Thread Cell Value)}
  {event : Event Thread Cell Value} {t u : Thread} {mo : MemoryOrder} {cell : Cell}
  {word : Written Thread Value} {s after : StoreBuffer.State Thread Cell (Written Thread Value) ℕ}

theorem written_flush : written (accesses Thread Cell Value) cell event = some word ↔
    ∃ t, flushed t event = some (cell, word) := by
  obtain ⟨u, act⟩ := event
  cases act with
  | executes access =>
      cases operation : access.operation with
      | load mo target read =>
          simp [written, flushed, accesses, access.load_instruction operation]
      | store mo target stamped =>
          simp [written, flushed, accesses, access.store_instruction operation]
  | flush target value =>
      by_cases same : target = cell
      · simp [written, flushed, same]
      · simp [written, flushed, same]

theorem mem_memoryOrder : word ∈ memoryOrder initial trace cell ↔
    word = start initial cell ∨ ∃ t, (cell, word) ∈ trace.filterMap (flushed t) := by
  simp only [memoryOrder, List.mem_cons, List.mem_filterMap, written_flush]
  constructor
  · rintro (first | ⟨event, member, t, written⟩)
    · exact Or.inl first
    · exact Or.inr ⟨t, event, member, written⟩
  · rintro (first | ⟨t, event, member, written⟩)
    · exact Or.inl first
    · exact Or.inr ⟨event, member, t, written⟩

theorem memoryOrder_grows (known : word ∈ memoryOrder initial early cell) :
    word ∈ memoryOrder initial (early ++ late) cell := by
  rw [mem_memoryOrder] at known ⊢
  rcases known with first | ⟨t, member⟩
  · exact Or.inl first
  · exact Or.inr ⟨t, by simp [member]⟩

theorem numbered (reached : Reaches (step (accesses Thread Cell Value)) unrestricted
    (init (start initial) fun _ => 0) trace s) :
    (trace.filterMap (issued (accesses Thread Cell Value) t)).map (fun store => store.2.writer) =
      (List.range (s.control t)).map fun number => some (t, number) := by
  induction reached with
  | start => rfl
  | @next trace before after event reached _ taken ih =>
      obtain ⟨u, act⟩ := event
      rw [filterMap_snoc, List.map_append, ih]
      cases act with
      | flush target value =>
          obtain ⟨newer, -, rfl⟩ := step_flush.mp taken
          simp [issued]
      | executes access =>
          obtain ⟨next, middle, moves, -, rfl⟩ := step_executes.mp taken
          cases operation : access.operation with
          | load mo target read =>
              -- A load leaves the thread at its next store.
              have same : before.control u = next := by
                simpa [accesses, goes, operation] using moves
              simp [issued, accesses, access.load_instruction operation, Instruction.stored, ← same]
          | store mo target stamped =>
              simp only [accesses, goes, operation] at moves
              obtain ⟨stamp, rfl⟩ := guarded_eq_some.mp moves
              by_cases self : u = t
              · subst self
                simp [issued, accesses, access.store_instruction operation, Instruction.stored,
                  stamp, List.range_succ]
              · simp [issued, self, Function.update_of_ne (Ne.symm self)]

theorem issued_nodup (reached : Reaches (step (accesses Thread Cell Value)) unrestricted
    (init (start initial) fun _ => 0) trace s) :
    (trace.filterMap (issued (accesses Thread Cell Value) t)).Nodup := by
  have distinct : ((List.range (s.control t)).map fun number => some (t, number)).Nodup :=
    List.Nodup.map (fun first second same => by simpa using same) List.nodup_range
  rw [← numbered reached] at distinct
  exact distinct.of_map

theorem issued_writer (reached : Reaches (step (accesses Thread Cell Value)) unrestricted
    (init (start initial) fun _ => 0) trace s)
    (member : (cell, word) ∈ trace.filterMap (issued (accesses Thread Cell Value) t)) :
    ∃ number, word.writer = some (t, number) := by
  have stamp := List.mem_map_of_mem (f := fun store => store.2.writer) member
  rw [numbered reached] at stamp
  obtain ⟨number, -, same⟩ := List.mem_map.mp stamp
  exact ⟨number, same.symm⟩

theorem flushed_of_issued (reached : Reaches (step (accesses Thread Cell Value)) unrestricted
    (init (start initial) fun _ => 0) trace s)
    (member : (cell, word) ∈ trace.filterMap (issued (accesses Thread Cell Value) t))
    (there : word ∈ memoryOrder initial trace cell) :
    (cell, word) ∈ trace.filterMap (flushed t) := by
  obtain ⟨number, mine⟩ := issued_writer reached member
  rw [mem_memoryOrder] at there
  rcases there with rfl | ⟨u, flushed'⟩
  · cases mine
  · have theirs : (cell, word) ∈ trace.filterMap (issued (accesses Thread Cell Value) u) := by
      rw [issued_eq u reached]
      exact List.mem_append_left _ flushed'
    obtain ⟨number', same⟩ := issued_writer reached theirs
    rw [mine] at same
    cases same
    exact flushed'

theorem load_source (reached : Reaches (step (accesses Thread Cell Value)) unrestricted
    (init (start initial) fun _ => 0) trace s)
    (taken : step (accesses Thread Cell Value) s event = some after)
    (loads : IsLoad event t mo cell word) :
    (cell, word) ∈ s.buffer t ∨ (memoryOrder initial trace cell).getLast? = some word := by
  obtain ⟨access, rfl, operation⟩ := loads
  obtain ⟨next, middle, -, done, -⟩ := step_executes.mp taken
  have code : (accesses Thread Cell Value).code access = .load cell word :=
    access.load_instruction operation
  rw [code] at done
  have seen : s.sees t cell = word := (guarded_eq_some.mp done).1
  cases found : newest cell (s.buffer t) with
  | some own =>
      have same : own = word := by simpa [State.sees, found] using seen
      exact Or.inl (same ▸ newest_mem found)
  | none =>
      have memory : s.memory cell = word := by simpa [State.sees, found] using seen
      rw [memoryOrder, List.getLast?_cons, ← memory, memory_eq cell reached]
      exact Or.inr rfl

/-- What a Release store publishes has reached memory before another thread can read
that store. -/
theorem published_known {first middle : List (Event Thread Cell Value)}
    {release : Event Thread Cell Value} {flag : Cell} {signal : Written Thread Value}
    (reached : Reaches (step (accesses Thread Cell Value)) unrestricted
      (init (start initial) fun _ => 0) (first ++ release :: middle) s)
    (taken : step (accesses Thread Cell Value) s event = some after)
    (stores : IsStore release u .release flag signal) (loads : IsLoad event t .acquire flag signal)
    (known : word ∈ memoryOrder initial first cell ∨
      (cell, word) ∈ first.filterMap (issued (accesses Thread Cell Value) u)) :
    word ∈ memoryOrder initial (first ++ release :: middle) cell ∨
      t = u ∧ (cell, word) ∈
        (first ++ release :: middle).filterMap (issued (accesses Thread Cell Value) u) := by
  rcases known with there | own
  · exact Or.inl (memoryOrder_grows there)
  · have order : (first ++ release :: middle).filterMap (issued (accesses Thread Cell Value) u) =
        first.filterMap (issued (accesses Thread Cell Value) u) ++ (flag, signal) ::
          middle.filterMap (issued (accesses Thread Cell Value) u) := by
      rw [List.filterMap_append, List.filterMap_cons, issued_store stores]
    have member : (flag, signal) ∈
        (first ++ release :: middle).filterMap (issued (accesses Thread Cell Value) u) := by
      simp [order]
    rcases load_source reached taken loads with buffered | last
    · -- The reader forwards its own store.
      have mine : (flag, signal) ∈
          (first ++ release :: middle).filterMap (issued (accesses Thread Cell Value) t) := by
        rw [issued_eq t reached]
        exact List.mem_append_right _ buffered
      obtain ⟨number, stamp⟩ := issued_writer reached mine
      obtain ⟨number', stamp'⟩ := issued_writer reached member
      rw [stamp] at stamp'
      cases stamp'
      exact Or.inr ⟨rfl, by rw [order]; exact List.mem_append_left _ own⟩
    · -- The signal is in memory, and so is all that was before it in the buffer.
      have gone := flushed_of_issued reached member (List.mem_of_getLast? last)
      have distinct := issued_nodup (t := u) reached
      rw [order] at distinct
      have split := order.symm.trans (issued_eq u reached)
      refine Or.inl (mem_memoryOrder.mpr (Or.inr ⟨u, ?_⟩))
      exact earlier_flushed split distinct gone _ own

theorem past_known (past : Past trace t cell word)
    (reached : Reaches (step (accesses Thread Cell Value)) unrestricted
      (init (start initial) fun _ => 0) trace s) :
    word ∈ memoryOrder initial trace cell ∨
      (cell, word) ∈ trace.filterMap (issued (accesses Thread Cell Value) t) := by
  induction past generalizing s with
  | issued stores =>
      refine Or.inr ?_
      simp [issued_store stores]
  | @observed early late event t cell word loads =>
      obtain ⟨before, after, earlier, -, taken, -⟩ := reached.around
      rcases load_source earlier taken loads with own | last
      · refine Or.inr ?_
        rw [List.filterMap_append, issued_eq t earlier]
        simp [own]
      · exact Or.inl (memoryOrder_grows (List.mem_of_getLast? last))
  | published stores loads past ih =>
      obtain ⟨before, after, earlier, -, taken, -⟩ := reached.around
      obtain ⟨start, _, first, -⟩ := earlier.around
      rcases published_known earlier taken stores loads (ih first) with there | ⟨rfl, own⟩
      · exact Or.inl (memoryOrder_grows there)
      · refine Or.inr ?_
        rw [List.filterMap_append]
        exact List.mem_append_left _ own

theorem reads_at_or_after (reached : Reaches (step (accesses Thread Cell Value)) unrestricted
    (init (start initial) fun _ => 0) trace s)
    (taken : step (accesses Thread Cell Value) s event = some after) {seen : Written Thread Value}
    (loads : IsLoad event t mo cell seen) (there : word ∈ memoryOrder initial trace cell) :
    AtOrAfter initial trace t cell word seen := by
  obtain ⟨older, newer, order⟩ := List.append_of_mem there
  refine ⟨older, newer, order, ?_⟩
  rcases load_source reached taken loads with own | last
  · -- An own store in the buffer is not in memory.
    have whole := issued_eq t reached
    have mine : (cell, seen) ∈ trace.filterMap (issued (accesses Thread Cell Value) t) := by
      rw [whole]
      exact List.mem_append_right _ own
    refine Or.inr (Or.inr ⟨fun inMemory => ?_, ?_⟩)
    · have gone := flushed_of_issued reached mine inMemory
      have distinct := issued_nodup (t := t) reached
      rw [whole] at distinct
      exact (List.nodup_append.mp distinct).2.2 _ gone _ own rfl
    · obtain ⟨event, member, stored⟩ := List.mem_filterMap.mp mine
      exact ⟨event, member, store_of_issued stored⟩
  · rw [order, List.getLast?_append, List.getLast?_cons, Option.some_or] at last
    cases newest : newer.getLast? with
    | none =>
        rw [newest] at last
        exact Or.inl (Option.some.inj last).symm
    | some final =>
        rw [newest] at last
        cases last
        exact Or.inr (Or.inl (List.mem_of_getLast? newest))

/-- Release and Acquire publish: where an Acquire load of `t` reads a Release store of
`u`, every later load by `t` of a cell that a write in the past of that store went
to returns this write or a later one of the memory order. -/
theorem release_acquire_publishes {first middle between rest : List (Event Thread Cell Value)}
    {release acquire load : Event Thread Cell Value} {flag : Cell}
    {signal seen : Written Thread Value}
    (reached : Reaches (step (accesses Thread Cell Value)) unrestricted
      (init (start initial) fun _ => 0)
      (first ++ release :: middle ++ acquire :: between ++ load :: rest) s)
    (stores : IsStore release u .release flag signal)
    (loads : IsLoad acquire t .acquire flag signal) (other : u ≠ t)
    (past : Past first u cell word) (later : IsLoad load t mo cell seen) :
    AtOrAfter initial (first ++ release :: middle ++ acquire :: between) t cell word seen := by
  obtain ⟨before, after, whole, -, taken, -⟩ := reached.around
  obtain ⟨upon, _, earlier, -, acquired, -⟩ := whole.around
  obtain ⟨start, _, fresh, -⟩ := earlier.around
  rcases published_known earlier acquired stores loads (past_known past fresh) with
    there | ⟨same, -⟩
  · exact reads_at_or_after whole taken later (memoryOrder_grows there)
  · exact absurd same.symm other

end Histories

/-- Thread `none` writes the data and sets a flag, thread `some false` sees the flag and
sets another, thread `some true` sees that one and reads the data. -/
theorem release_acquire_publishes_chain :
    ∃ (trace : List (Event (Option Bool) (Option Bool) Int64)) (load : Event _ _ _)
      (s word seen : _),
      run (step (accesses (Option Bool) (Option Bool) Int64))
        (init (start fun _ => 0) fun _ => 0) (trace ++ [load]) = some s ∧
      IsLoad load (some true) .relaxed none seen ∧
      AtOrAfter (fun _ => 0) trace (some true) none word seen ∧ seen.value = 7 := by
  let data : Written (Option Bool) Int64 := { value := 7, writer := some (none, 0) }
  let ready : Written (Option Bool) Int64 := { value := 1, writer := some (none, 1) }
  let passed : Written (Option Bool) Int64 := { value := 1, writer := some (some false, 0) }
  let put : Event (Option Bool) (Option Bool) Int64 :=
    (none, .executes ⟨.store .relaxed none data, _, rfl⟩)
  let signal : Event (Option Bool) (Option Bool) Int64 :=
    (none, .executes ⟨.store .release (some false) ready, _, rfl⟩)
  let sees : Event (Option Bool) (Option Bool) Int64 :=
    (some false, .executes ⟨.load .acquire (some false) ready, _, rfl⟩)
  let passes : Event (Option Bool) (Option Bool) Int64 :=
    (some false, .executes ⟨.store .release (some true) passed, _, rfl⟩)
  let learns : Event (Option Bool) (Option Bool) Int64 :=
    (some true, .executes ⟨.load .acquire (some true) passed, _, rfl⟩)
  let reads : Event (Option Bool) (Option Bool) Int64 :=
    (some true, .executes ⟨.load .relaxed none data, _, rfl⟩)
  have wrote : Past ([] ++ put :: []) none none data := .issued ⟨_, rfl, rfl⟩
  have known : Past ([put] ++ signal ::
      [(none, .flush none data), (none, .flush (some false) ready)] ++ sees :: [])
      (some false) none data :=
    .published ⟨_, rfl, rfl⟩ ⟨_, rfl, rfl⟩ wrote
  have ran : run (step (accesses (Option Bool) (Option Bool) Int64))
      (init (start fun _ => 0) fun _ => 0)
      ([put, signal, (none, .flush none data), (none, .flush (some false) ready), sees] ++
        passes :: [(some false, .flush (some true) passed)] ++ learns :: [] ++ reads :: []) =
        some _ := rfl
  exact ⟨_, reads, _, data, data, ran, ⟨_, rfl, rfl⟩, release_acquire_publishes (run_free ran)
    ⟨_, rfl, rfl⟩ ⟨_, rfl, rfl⟩ (by decide) known ⟨_, rfl, rfl⟩, rfl⟩

end ConcurrencyCourse.ReleaseAcquire
