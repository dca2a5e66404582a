import Mathlib.Algebra.Ring.Nat
import Mathlib.Data.Fintype.Card
import Mathlib.Data.List.Nodup
import ConcurrencyCourse.Interleaving

/-!
What a fair lock is for: a line of threads in which everybody stands at most
once and only the first may be inside. The second half numbers such a line by
consecutive tickets modulo 2^w, which is how a ticket lock stores it; nothing
here mentions a program.
-/

namespace ConcurrencyCourse.FifoLock

open Interleaving

variable {Thread : Type*}

structure Line (Thread : Type*) where
  waiting : List Thread
  inside : Bool
  distinct : waiting.Nodup
  occupied : inside = true → waiting ≠ []

def empty : Line Thread := ⟨[], false, List.nodup_nil, by simp⟩

def Line.owner (line : Line Thread) : Option Thread :=
  if line.inside then line.waiting.head? else none

theorem owner_none (line : Line Thread) (idle : line.owner = none) : line.inside = false := by
  by_contra busy
  rcases List.exists_cons_of_ne_nil (line.occupied (by simpa using busy)) with ⟨first, rest, stands⟩
  simp [Line.owner, busy, stands] at idle

theorem owner_some (line : Line Thread) {t : Thread} (inside : line.owner = some t) :
    line.waiting.head? = some t ∧ line.inside = true := by
  by_cases busy : line.inside = true
  · exact ⟨by simpa [Line.owner, busy] using inside, busy⟩
  · simp [Line.owner, busy] at inside

inductive Event (Thread : Type*) where
  | enqueue (t : Thread)
  | enter (t : Thread)
  | leave (t : Thread)

section Line
variable [DecidableEq Thread]

def step (line : Line Thread) : Event Thread → Option (Line Thread)
  | .enqueue t =>
      if fresh : t ∉ line.waiting then
        some
          { line with
            waiting := line.waiting ++ [t]
            distinct := List.nodup_append.mpr ⟨line.distinct, List.nodup_singleton t, by
              intro u member v last same
              rw [List.mem_singleton.mp last] at same
              exact fresh (same ▸ member)⟩
            occupied := by simp }
      else none
  | .enter t =>
      if first : line.waiting.head? = some t ∧ line.inside = false then
        some
          { line with
            inside := true
            occupied := fun _ nobody => by simp [nobody] at first }
      else none
  | .leave t =>
      if line.waiting.head? = some t ∧ line.inside = true then
        some
          { waiting := line.waiting.tail
            inside := false
            distinct := line.distinct.tail
            occupied := by simp }
      else none

theorem step_enqueue (line : Line Thread) {t : Thread} (fresh : t ∉ line.waiting) :
    ∃ next, step line (.enqueue t) = some next ∧ next.waiting = line.waiting ++ [t] ∧
      next.owner = line.owner := by
  refine ⟨_, dif_pos fresh, rfl, ?_⟩
  by_cases busy : line.inside = true
  · rcases List.exists_cons_of_ne_nil (line.occupied busy) with ⟨first, rest, stands⟩
    simp [Line.owner, busy, stands]
  · simp [Line.owner, busy]

theorem step_enter (line : Line Thread) {t : Thread} (front : line.waiting.head? = some t)
    (idle : line.owner = none) :
    ∃ next, step line (.enter t) = some next ∧ next.waiting = line.waiting ∧
      next.owner = some t := by
  refine ⟨_, dif_pos ⟨front, owner_none line idle⟩, rfl, ?_⟩
  simpa [Line.owner] using front

theorem step_leave (line : Line Thread) {t : Thread} (inside : line.owner = some t) :
    ∃ next, step line (.leave t) = some next ∧ line.waiting = t :: next.waiting ∧
      next.owner = none := by
  have front := owner_some line inside
  refine ⟨_, if_pos front, ?_, by simp [Line.owner]⟩
  rcases List.head?_eq_some_iff.mp front.1 with ⟨rest, stands⟩
  simp [stands]

def Event.queuer : Event Thread → Option Thread
  | .enqueue t => some t
  | _ => none

def Event.enterer : Event Thread → Option Thread
  | .enter t => some t
  | _ => none

def enqueued (trace : List (Event Thread)) : List Thread := trace.filterMap Event.queuer

def entered (trace : List (Event Thread)) : List Thread := trace.filterMap Event.enterer

theorem line_history {trace : List (Event Thread)} {line : Line Thread}
    (reached : Reaches step unrestricted empty trace line) :
    ∃ gone, enqueued trace = gone ++ line.waiting ∧
      entered trace = gone ++ (if line.inside then line.waiting.take 1 else []) := by
  induction reached with
  | start => exact ⟨[], rfl, rfl⟩
  | @next trace line after event _ _ taken ih =>
      rcases ih with ⟨gone, queued, came⟩
      simp only [enqueued, entered, List.filterMap_append] at queued came ⊢
      rw [queued, came]
      cases event with
      -- Whoever queues stands behind the owner and does not come in.
      | enqueue t =>
          simp only [step, Option.dite_none_right_eq_some, Option.some.injEq] at taken
          rcases taken with ⟨_, rfl⟩
          refine ⟨gone, by simp [Event.queuer], ?_⟩
          by_cases busy : line.inside = true
          · rcases List.exists_cons_of_ne_nil (line.occupied busy) with ⟨first, rest, stands⟩
            simp [Event.enterer, busy, stands]
          · simp [Event.enterer, busy]
      | enter t =>
          simp only [step, Option.dite_none_right_eq_some, Option.some.injEq] at taken
          rcases taken with ⟨⟨front, idle⟩, rfl⟩
          rcases List.head?_eq_some_iff.mp front with ⟨rest, stands⟩
          exact ⟨gone, by simp [Event.queuer], by simp [Event.enterer, idle, stands]⟩
      -- The head of the line leaves: one more is gone, in both histories.
      | leave t =>
          simp only [step, Option.ite_none_right_eq_some, Option.some.injEq] at taken
          rcases taken with ⟨⟨front, busy⟩, rfl⟩
          rcases List.head?_eq_some_iff.mp front with ⟨rest, stands⟩
          exact ⟨gone ++ [t], by simp [Event.queuer, stands],
            by simp [Event.enterer, busy, stands]⟩

/-- First come, first served: the threads enter in the order in which they queued. -/
theorem entered_in_order {trace : List (Event Thread)} {line : Line Thread}
    (reached : Reaches step unrestricted empty trace line) :
    entered trace <+: enqueued trace := by
  rcases line_history reached with ⟨gone, queued, came⟩
  rw [queued, came, List.prefix_append_right_inj]
  split
  · exact List.take_prefix 1 line.waiting
  · exact List.nil_prefix

end Line

section Tickets
variable {w : ℕ}

/-- The line is numbered by `first`, `first + 1`, … modulo 2^w, and nobody else
holds a ticket. -/
structure Numbered (ticket : Thread → Option (BitVec w)) (first : BitVec w)
    (waiting : List Thread) : Prop where
  holders : ∀ t, (ticket t).isSome = true ↔ t ∈ waiting
  position : ∀ i t, waiting[i]? = some t → ticket t = some (first + BitVec.ofNat w i)

variable {ticket : Thread → Option (BitVec w)} {first : BitVec w} {waiting : List Thread}

theorem ofNat_cancel {i j : ℕ} (first : BitVec w) (small : i < 2 ^ w) (small' : j < 2 ^ w)
    (same : first + BitVec.ofNat w i = first + BitVec.ofNat w j) : i = j := by
  have equal := congrArg BitVec.toNat ((BitVec.add_right_inj first).mp same)
  simpa [Nat.mod_eq_of_lt small, Nat.mod_eq_of_lt small'] using equal

theorem numbered_index (numbered : Numbered ticket first waiting) {t : Thread} {k : BitVec w}
    (held : ticket t = some k) :
    ∃ i, i < waiting.length ∧ waiting[i]? = some t ∧ k = first + BitVec.ofNat w i := by
  have member : t ∈ waiting := (numbered.holders t).mp (by simp [held])
  rcases List.mem_iff_getElem?.mp member with ⟨i, at_i⟩
  have same := (numbered.position i t at_i).symm.trans held
  exact ⟨i, (List.getElem?_eq_some_iff.mp at_i).1, at_i, (Option.some.inj same).symm⟩

theorem tickets_distinct (numbered : Numbered ticket first waiting)
    (few : waiting.length ≤ 2 ^ w) {t u : Thread} {k : BitVec w} (held : ticket t = some k)
    (held' : ticket u = some k) : t = u := by
  rcases numbered_index numbered held with ⟨i, in_i, at_i, rfl⟩
  rcases numbered_index numbered held' with ⟨j, in_j, at_j, same⟩
  -- With fewer threads than tickets the numbering has not come round.
  have equal := ofNat_cancel first (by omega) (by omega) same
  subst equal
  exact Option.some.inj (at_i.symm.trans at_j)

theorem first_ticket (numbered : Numbered ticket first waiting)
    (few : waiting.length ≤ 2 ^ w) {t : Thread} (held : ticket t = some first) :
    waiting.head? = some t := by
  rcases numbered_index numbered held with ⟨i, in_i, at_i, same⟩
  have zero : first + BitVec.ofNat w 0 = first + BitVec.ofNat w i := by simpa using same
  have equal := ofNat_cancel first (by omega) (by omega) zero
  subst equal
  simpa [List.head?_eq_getElem?] using at_i

theorem tickets_interval (numbered : Numbered ticket first waiting)
    (few : waiting.length < 2 ^ w) (k : BitVec w) :
    (∃ t, ticket t = some k) ↔
      k - first < first + BitVec.ofNat w waiting.length - first := by
  have length : (first + BitVec.ofNat w waiting.length - first).toNat = waiting.length := by
    rw [BitVec.add_comm, BitVec.add_sub_cancel, BitVec.toNat_ofNat, Nat.mod_eq_of_lt few]
  rw [BitVec.lt_def, length]
  constructor
  · rintro ⟨t, held⟩
    rcases numbered_index numbered held with ⟨i, in_i, _, rfl⟩
    rw [BitVec.add_comm, BitVec.add_sub_cancel, BitVec.toNat_ofNat]
    exact (Nat.mod_le _ _).trans_lt in_i
  · intro below
    refine ⟨waiting[(k - first).toNat], ?_⟩
    rw [numbered.position _ _ (List.getElem?_eq_getElem below), BitVec.ofNat_toNat,
      BitVec.setWidth_eq, BitVec.add_comm, BitVec.sub_add_cancel]

variable [DecidableEq Thread]

theorem numbered_enqueue (numbered : Numbered ticket first waiting) {t : Thread}
    (fresh : t ∉ waiting) :
    Numbered (Function.update ticket t (some (first + BitVec.ofNat w waiting.length))) first
      (waiting ++ [t]) := by
  constructor
  · intro u
    by_cases same : u = t
    · simp [same]
    · simp [same, numbered.holders u]
  · intro i u at_i
    by_cases inside : i < waiting.length
    · rw [List.getElem?_append_left inside] at at_i
      have different : u ≠ t := by
        rintro rfl
        exact fresh (List.mem_of_getElem? at_i)
      rw [Function.update_of_ne different]
      exact numbered.position i u at_i
    -- The new thread is the last, and its number is the length of the line.
    · have bound := (List.getElem?_eq_some_iff.mp at_i).1
      have last : i = waiting.length := by
        simp only [List.length_append, List.length_singleton] at bound
        omega
      subst last
      simp at at_i
      simp [at_i]

theorem numbered_leave {t : Thread} {rest : List Thread}
    (numbered : Numbered ticket first (t :: rest)) (distinct : (t :: rest).Nodup) :
    Numbered (Function.update ticket t none) (first + 1) rest := by
  have away : ∀ u ∈ rest, u ≠ t := by
    rintro u member rfl
    exact (List.nodup_cons.mp distinct).1 member
  constructor
  · intro u
    by_cases same : u = t
    · subst same
      simpa using (List.nodup_cons.mp distinct).1
    · simp [same, numbered.holders u]
  · intro i u at_i
    -- Everybody moves up by one, and so does the first number.
    rw [Function.update_of_ne (away u (List.mem_of_getElem? at_i)),
      numbered.position (i + 1) u (by simpa using at_i), BitVec.ofNat_add, BitVec.add_assoc,
      BitVec.add_comm (BitVec.ofNat w i)]
    rfl

end Tickets
end ConcurrencyCourse.FifoLock
