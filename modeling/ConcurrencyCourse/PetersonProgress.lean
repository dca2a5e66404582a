import ConcurrencyCourse.Fairness
import ConcurrencyCourse.Peterson

/-!
Progress of `PetersonMutex` on one memory. While a thread waits as the victim, its rival goes
through its critical section, and at the latest when it comes back it makes itself the
victim. From then on the loop of the waiting thread is left after two loads.
-/

namespace ConcurrencyCourse.Peterson

open Interleaving StoreBuffer Atomic Fairness

abbrev Memory := Shared Bool Cell Int64 Pc

def initial : Memory := { memory := start, control := fun _ => .outside }

def owes (t : Bool) (s : Memory) (label : Bool × Op) : Prop :=
  label.1 = t ∧ s.control t ≠ .outside

variable {s after : Memory} {t : Bool} {op : Op}

theorem elsewhere {u : Bool} (taken : sharedStep peterson s (u, op) = some after)
    (other : t ≠ u) : after.control t = s.control t := by
  obtain ⟨next, middle, _, done, rfl⟩ := move_step taken
  exact Function.update_of_ne other ..

theorem Exclusive.ready (exclusive : Exclusive s) (inside : s.control t ≠ .outside) :
    Ready (sharedStep peterson) owes t s := by
  have able (op : Op) (next : Pc) (goes : goes t (s.control t) op = some next)
      (done : (s.executes op.code).isSome = true) : Ready (sharedStep peterson) owes t s := by
    obtain ⟨middle, done⟩ := Option.isSome_iff_exists.mp done
    exact ⟨(t, op), ⟨rfl, inside⟩, Option.isSome_iff_exists.mpr
      ⟨_, sharedStep_eq_some.mpr ⟨next, middle, goes, done, rfl⟩⟩⟩
  cases here : s.control t with
  | outside => exact absurd here inside
  | wanting =>
      exact able (.atomic (.store .victim (index t))) .first (by simp [here, goes]) rfl
  | first =>
      exact able (.atomic (.load (.wants (!t)) (s.memory (.wants (!t))))) _
        (by rw [here]; exact guarded_eq_some.mpr ⟨rfl, rfl⟩) (guarded_isSome.mpr rfl)
  | second =>
      exact able (.atomic (.load .victim (s.memory .victim))) _
        (by rw [here]; exact guarded_eq_some.mpr ⟨rfl, rfl⟩) (guarded_isSome.mpr rfl)
  | acquired => exact able (.storeOwner (index t)) .critical (by simp [here, goes]) rfl
  | critical =>
      exact able (.loadOwner (s.memory .owner)) (.releasing (s.memory .owner))
        (by simp [here, goes]) (guarded_isSome.mpr rfl)
  | releasing owner =>
      have own := (exclusive.sound t).read owner here
      exact able (.atomic (.store (.wants t) 0)) .outside (by simp [here, goes, own]) rfl

theorem index_other (t : Bool) : index (!t) ≠ index t := by
  intro same
  cases t <;> cases index_injective same

section Waiting

structure Waits (t : Bool) (s : Memory) : Prop where
  exclusive : Exclusive s
  waits : (s.control t).waits = true

theorem Waits.own (waits : Waits t s) (taken : sharedStep peterson s (t, op) = some after) :
    after.control t = .acquired ∨ after.memory = s.memory ∧
      (s.control t = .first ∧ after.control t = .second ∧ s.control (!t) ≠ .outside ∨
        s.control t = .second ∧ after.control t = .first ∧ s.memory .victim = index t) := by
  obtain ⟨next, middle, move, done, rfl⟩ := move_step taken
  have rival := (waits.exclusive.sound (!t)).wants
  have inside := waits.waits
  generalize here : s.control t = pc at move inside
  generalize op.code = instruction at move done
  cases move with
  | first value =>
      obtain ⟨seen, rfl⟩ := guarded_eq_some.mp done
      by_cases wanted : value = 1
      -- A thread whose flag is set is not outside.
      · refine .inr ⟨rfl, .inl ⟨rfl, by simp [wanted], fun away => ?_⟩⟩
        rw [away, if_pos rfl, seen, wanted] at rival
        cases rival
      · exact .inl (by simp [wanted])
  | second value =>
      obtain ⟨seen, rfl⟩ := guarded_eq_some.mp done
      by_cases still : value = index t
      · exact .inr ⟨rfl, .inr ⟨rfl, by simp [still], seen.trans still⟩⟩
      · exact .inl (by simp [still])
  | wants | victim | acquired | critical | releasing => cases inside

def Pc.away : Pc → ℕ
  | .first => 7
  | .second => 6
  | .acquired => 5
  | .critical => 4
  | .releasing _ => 3
  | .outside => 2
  | .wanting => 1

theorem Pc.away_pos (pc : Pc) : 0 < pc.away := by
  cases pc <;> simp [Pc.away]

theorem rival_step (taken : sharedStep peterson s (!t, op) = some after) :
    after.memory .victim ≠ index t ∨
      s.memory .victim = index t ∧ after.memory .victim = index t ∧
        (after.control (!t)).away < (s.control (!t)).away := by
  obtain ⟨next, middle, move, done, rfl⟩ := move_step taken
  by_cases yields : s.memory .victim = index t
  -- The rival is not the victim: it never has to wait, and each step brings it nearer.
  · generalize here : s.control (!t) = pc at move
    generalize op.code = instruction at move done
    cases move with
    | wants =>
        cases done
        exact .inr ⟨yields, by simpa using yields, by simp [Pc.away]⟩
    | victim =>
        cases done
        exact .inl (by simpa using index_other t)
    | first value =>
        obtain ⟨_, rfl⟩ := guarded_eq_some.mp done
        refine .inr ⟨yields, yields, ?_⟩
        by_cases wanted : value = 1 <;> simp [wanted, Pc.away]
    | second value =>
        obtain ⟨seen, rfl⟩ := guarded_eq_some.mp done
        have other : value ≠ index (!t) := by
          rw [← seen, yields]
          exact (index_other t).symm
        exact .inr ⟨yields, yields, by simp [other, Pc.away]⟩
    | acquired =>
        cases done
        exact .inr ⟨yields, by simpa using yields, by simp [Pc.away]⟩
    | critical value =>
        obtain ⟨_, rfl⟩ := guarded_eq_some.mp done
        exact .inr ⟨yields, yields, by simp [Pc.away]⟩
    | releasing thread =>
        cases done
        exact .inr ⟨yields, by simpa using yields, by simp [Pc.away]⟩
  -- It is the victim already; only this thread could change that.
  · refine .inl ?_
    generalize s.control (!t) = pc at move
    generalize op.code = instruction at move done
    cases move with
    | victim =>
        cases done
        simpa using index_other t
    | wants | acquired | releasing =>
        cases done
        simpa using yields
    | first value | second value | critical value =>
        obtain ⟨_, rfl⟩ := guarded_eq_some.mp done
        exact yields

/-- While the thread is the victim, the rival's way to `victim_` counts, and beside it, where
the rival is outside, a load by which the thread comes back to the first test. After that
only the thread's own way out of the loop counts. -/
def measure (t : Bool) (s : Memory) : ℕ :=
  if s.memory .victim = index t then
    4 * (s.control (!t)).away +
      (if s.control (!t) = .outside ∧ s.control t = .second then 1 else 0)
  else if s.control t = .first then 1 else 0

/-- Who has to move: the rival in its methods, as long as the thread is the victim. -/
def helper (t : Bool) (s : Memory) : Bool :=
  if s.memory .victim = index t ∧ s.control (!t) ≠ .outside then !t else t

theorem Waits.other (waits : Waits t s) (taken : sharedStep peterson s (!t, op) = some after) :
    Waits t after ∧ after.control t = s.control t := by
  have still := elsewhere taken (by cases t <;> simp : t ≠ !t)
  exact ⟨⟨exclusive_step _ _ _ waits.exclusive taken, still ▸ waits.waits⟩, still⟩

theorem Waits.own_stays (waits : Waits t s) (taken : sharedStep peterson s (t, op) = some after) :
    after.control t = .acquired ∨ Waits t after ∧
      (measure t after < measure t s ∨
        measure t after = measure t s ∧ helper t after = helper t s ∧ helper t s = !t) := by
  have apart : (!t) ≠ t := by cases t <;> simp
  have still := elsewhere taken apart
  rcases waits.own taken with entered | ⟨same, here⟩
  · exact .inl entered
  have again : Waits t after := by
    refine ⟨exclusive_step _ _ _ waits.exclusive taken, ?_⟩
    rcases here with ⟨_, now, _⟩ | ⟨_, now, _⟩ <;> rw [now] <;> rfl
  refine .inr ⟨again, ?_⟩
  -- A failed test leaves memory alone: going round the loop costs nothing and gains nothing.
  rcases here with ⟨was, now, inside⟩ | ⟨was, now, victim⟩
  · by_cases victim : s.memory .victim = index t
    · exact .inr ⟨by simp [measure, same, still, victim, inside], by simp [helper, same, still],
        by simp [helper, victim, inside]⟩
    · exact .inl (by simp [measure, same, victim, was, now])
  · by_cases outside : s.control (!t) = .outside
    · exact .inl (by simp [measure, same, still, victim, outside, was, now])
    · exact .inr ⟨by simp [measure, same, still, victim, outside], by simp [helper, same, still],
        by simp [helper, victim, outside]⟩

theorem Waits.rival_stays (waits : Waits t s)
    (taken : sharedStep peterson s (!t, op) = some after) :
    Waits t after ∧ (measure t after < measure t s ∨
      measure t after = measure t s ∧ helper t after = helper t s ∧ helper t s = t) := by
  obtain ⟨again, same⟩ := waits.other taken
  refine ⟨again, ?_⟩
  rcases rival_step taken with yields | ⟨victim, victim', closer⟩
  · by_cases victim : s.memory .victim = index t
    -- The rival has made itself the victim, and nothing of its way counts any more.
    · left
      have positive := (s.control (!t)).away_pos
      simp only [measure, yields, victim, if_true, if_false]
      split <;> omega
    · exact .inr ⟨by simp [measure, yields, victim, same], by simp [helper, yields, victim],
        by simp [helper, victim]⟩
  · left
    simp only [measure, victim, victim', if_true]
    split <;> omega

theorem waits_measure (t : Bool) : Measure (sharedStep peterson) owes (Waits t)
    (fun s => s.control t = .acquired) (measure t) fun task s => task = helper t s := by
  refine ⟨fun s _ => ⟨helper t s, rfl⟩, ?_, ?_⟩
  · rintro s _ waits rfl
    refine waits.exclusive.ready ?_
    by_cases rival : s.memory .victim = index t ∧ s.control (!t) ≠ .outside
    · rw [helper, if_pos rival]
      exact rival.2
    · have inside := waits.waits
      rw [helper, if_neg rival]
      rintro away
      simp [away, Pc.waits] at inside
  -- Whoever has to move lowers the measure; the other at worst leaves both as they are.
  · rintro s _ ⟨u, op⟩ after waits rfl taken
    rcases either t u with rfl | rfl
    · rcases waits.own_stays taken with entered | ⟨again, less | ⟨level, same, rival⟩⟩
      · exact .inl entered
      · exact .inr ⟨again, .inl less⟩
      · refine .inr ⟨again, .inr ⟨level, same.symm, fun owed => ?_⟩⟩
        have self := owed.1.trans rival
        cases u <;> cases self
    · obtain ⟨again, less | ⟨level, same, mine⟩⟩ := waits.rival_stays taken
      · exact .inr ⟨again, .inl less⟩
      · refine .inr ⟨again, .inr ⟨level, same.symm, fun owed => ?_⟩⟩
        have self := owed.1.trans mine
        cases t <;> cases self

end Waiting

section Progress
variable {e : Execution (sharedStep peterson) initial}

theorem execution_exclusive (e : Execution (sharedStep peterson) initial) (n : ℕ) :
    Exclusive (e.state n) := by
  obtain ⟨trace, reached⟩ := e.reaches n
  exact exclusive_reachable reached

theorem leaves_place (fair : e.Fair owes) (t : Bool) (place next : Pc → Prop)
    (inside : ∀ pc, place pc → pc ≠ .outside)
    (left : ∀ pc instruction pc', place pc → Move t pc instruction pc' → next pc') :
    e.LeadsTo (fun s => place (s.control t)) fun s => next (s.control t) := by
  have leads : e.LeadsTo (fun s => Exclusive s ∧ place (s.control t))
      fun s => next (s.control t) := by
    refine Execution.leadsTo_by fair t (fun s here => here.1.ready (inside _ here.2)) ?_
    rintro s ⟨u, op⟩ after ⟨exclusive, here⟩ taken
    by_cases self : u = t
    · subst self
      obtain ⟨next', middle, move, done, rfl⟩ := move_step taken
      exact .inl (by simpa using left _ _ _ here move)
    · refine .inr ⟨⟨exclusive_step _ _ _ exclusive taken, ?_⟩, fun owed => self owed.1⟩
      rw [elsewhere taken (Ne.symm self)]
      exact here
  exact fun n here => leads n ⟨execution_exclusive e n, here⟩

theorem caller_acquires (fair : e.Fair owes) (t : Bool) :
    e.LeadsTo (fun s => s.control t ≠ .outside) fun s => (s.control t).owns = true := by
  have wanted : e.LeadsTo (fun s => s.control t = .wanting) fun s =>
      (s.control t).waits = true := by
    refine leaves_place fair t (fun pc => pc = .wanting) (fun pc => pc.waits = true) ?_ ?_
    · rintro pc rfl
      simp
    · rintro pc instruction pc' rfl move
      cases move
      rfl
  have waited : e.LeadsTo (fun s => (s.control t).waits = true) fun s =>
      s.control t = .acquired :=
    fun n waits => (waits_measure t).leadsTo fair n ⟨execution_exclusive e n, waits⟩
  have owned : e.LeadsTo (fun s => s.control t = .acquired) fun s => (s.control t).owns = true :=
    .arrived fun s here => congrArg Pc.owns here
  intro n inside
  cases here : (e.state n).control t with
  | outside => exact absurd here inside
  | wanting => exact ((wanted.through waited).through owned) n here
  | first | second => exact (waited.through owned) n (congrArg Pc.waits here)
  | acquired | critical | releasing => exact ⟨n, le_rfl, congrArg Pc.owns here⟩

theorem owner_leaves (fair : e.Fair owes) (t : Bool) :
    e.LeadsTo (fun s => (s.control t).owns = true) fun s => s.control t = .outside := by
  have stored : e.LeadsTo (fun s => s.control t = .acquired) fun s => s.control t = .critical := by
    refine leaves_place fair t (fun pc => pc = .acquired) (fun pc => pc = .critical) ?_ ?_
    · rintro pc rfl
      simp
    · rintro pc instruction pc' rfl move
      cases move
      rfl
  have loaded : e.LeadsTo (fun s => s.control t = .critical) fun s =>
      ∃ owner, s.control t = .releasing owner := by
    refine leaves_place fair t (fun pc => pc = .critical) (fun pc => ∃ owner, pc = .releasing owner)
      ?_ ?_
    · rintro pc rfl
      simp
    · rintro pc instruction pc' rfl move
      cases move
      exact ⟨_, rfl⟩
  have released : e.LeadsTo (fun s => ∃ owner, s.control t = .releasing owner) fun s =>
      s.control t = .outside := by
    refine leaves_place fair t (fun pc => ∃ owner, pc = .releasing owner) (fun pc => pc = .outside)
      ?_ ?_
    · rintro pc ⟨owner, rfl⟩
      simp
    · rintro pc instruction pc' ⟨owner, rfl⟩ move
      cases move
      rfl
  intro n owns
  cases here : (e.state n).control t with
  | outside | wanting | first | second => simp [here, Pc.owns] at owns
  | acquired => exact ((stored.through loaded).through released) n here
  | critical => exact (loaded.through released) n here
  | releasing owner => exact released n ⟨owner, here⟩

/-- Starvation freedom under weak fairness: a thread that has called Lock comes to own the
mutex, whatever the other one does, and every call is followed by the end of its Unlock. -/
theorem both_served (e : Execution (sharedStep peterson) initial) (fair : e.Fair owes) (t : Bool) :
    e.LeadsTo (fun s => s.control t ≠ .outside) (fun s => (s.control t).owns = true) ∧
    e.LeadsTo (fun s => s.control t ≠ .outside) fun s => s.control t = .outside :=
  ⟨caller_acquires fair t, (caller_acquires fair t).through (owner_leaves fair t)⟩

/-- Thread 0 comes while thread 1 is in the critical section and waits for one round of the
loop. -/
def overlapping : List (Bool × Op) :=
  [(true, .atomic (.store (.wants true) 1)), (true, .atomic (.store .victim 1)),
    (true, .atomic (.load (.wants false) 0)), (true, .storeOwner 1),
    (false, .atomic (.store (.wants false) 1)), (false, .atomic (.store .victim 0)),
    (false, .atomic (.load (.wants true) 1)), (false, .atomic (.load .victim 0)),
    (true, .loadOwner 1), (true, .atomic (.store (.wants true) 0)),
    (false, .atomic (.load (.wants true) 0)), (false, .storeOwner 0), (false, .loadOwner 0),
    (false, .atomic (.store (.wants false) 0))]

theorem both_served_in_turn : ∃ e : Execution (sharedStep peterson) initial,
    e.Fair owes ∧
    (∀ n, ∃ m, n ≤ m ∧ e.label m = some (false, .atomic (.load .victim 0))) ∧
    e.LeadsTo (fun s => s.control false ≠ .outside) fun s => (s.control false).owns = true := by
  have around : run (sharedStep peterson) initial overlapping = some initial := by
    have ran : run (sharedStep peterson) initial overlapping = some _ := rfl
    refine ran.trans (congrArg some (congrArg₂ Shared.mk (funext fun cell => ?_)
      (funext fun t => by cases t <;> rfl)))
    cases cell with
    | wants thread => cases thread <;> rfl
    | victim | owner => rfl
  have positive : 0 < overlapping.length := Nat.succ_pos _
  have fair : (Execution.cycle around positive).Fair owes := by
    rintro t n -
    have member : (t, Op.loadOwner (index t)) ∈ overlapping := by
      cases t <;> simp [overlapping, index]
    obtain ⟨m, later, here⟩ := Execution.cycle_label member n
    refine ⟨m, later, _, here, rfl, fun away => ?_⟩
    obtain ⟨next, middle, move, _⟩ := move_step (Execution.takes here)
    rw [away] at move
    cases move
  exact ⟨_, fair, Execution.cycle_label (by simp [overlapping]), (both_served _ fair false).1⟩

end Progress

end ConcurrencyCourse.Peterson
