import ConcurrencyCourse.Semaphore
import Mathlib.Data.Finset.Card
import Mathlib.Data.Nat.ModEq

/-!
`TaggedSemaphore<Tag>` of tasks/condvar/semaphore/tagged_semaphore.hpp: any number of
semaphores of one tag, any number of threads, and the Token objects that stand for
permits. A permit is a flag `valid_` that moves from object to object. Release gives
the permit back before it invalidates the token.
-/

namespace ConcurrencyCourse.TaggedSemaphore

open Interleaving Headcount

/-- Where a thread stands in Acquire, Release or a constructor or destructor of a Guard.
`guard` tells a Guard's own Acquire and Release from the plain ones. -/
inductive Pc (Sem Object : Type) where
  | outside
  | acquiring (sem : Sem) (guard : Bool)
  | constructing (sem : Sem) (guard : Bool)
  | releasing (sem : Sem) (token : Object) (guard : Bool)
  | invalidating (token : Object) (guard : Bool)
  | destroying (token : Object)
  deriving DecidableEq

inductive Op (Sem Object : Type) where
  | acquire (sem : Sem)
  | makeGuard (sem : Sem)
  | take
  | construct (token : Object)
  | move (source target : Object)
  | release (sem : Sem) (token : Object)
  | destroyGuard (token : Object)
  | give
  | invalidate
  | destroyMember
  | destroy (token : Object)
  deriving DecidableEq

/-- `alive` are the Token objects between constructor and destructor, `valid` those
with `valid_`. `guard` gives the `host_` of the Guard whose `token_` an object is.
Where an assertion fires the program stops. -/
structure State (Sem Thread Object : Type) where
  counter : Sem → UInt64
  alive : Finset Object
  valid : Finset Object
  guard : Object → Option Sem
  pc : Thread → Pc Sem Object
  fired : Bool

variable {Sem Thread Object : Type}

def init (tokens : Sem → UInt64) : State Sem Thread Object :=
  { counter := tokens, alive := ∅, valid := ∅, guard := fun _ => none, pc := fun _ => .outside
    fired := false }

def Pc.handed : Pc Sem Object → Option Object
  | .releasing _ token _ => some token
  | .invalidating token _ => some token
  | _ => none

def Pc.refers : Pc Sem Object → Option Object
  | .releasing _ token _ => some token
  | .invalidating token _ => some token
  | .destroying token => some token
  | _ => none

/-- An alive Token that no call under way refers to. Tokens are not shared between
threads without synchronization, so only such tokens are moved, released or destroyed. -/
def State.Free (s : State Sem Thread Object) (token : Object) : Prop :=
  token ∈ s.alive ∧ ∀ t, (s.pc t).refers ≠ some token

section Machine
variable [DecidableEq Sem] [DecidableEq Thread] [DecidableEq Object] [Fintype Thread]

instance (s : State Sem Thread Object) (token : Object) :
    Decidable (s.Free token) :=
  inferInstanceAs (Decidable (_ ∧ _))

def asserting (s : State Sem Thread Object) (holds : Prop) [Decidable holds]
    (after : State Sem Thread Object) : State Sem Thread Object :=
  if holds then after else { s with fired := true }

def moved (s : State Sem Thread Object) (source target : Object) : State Sem Thread Object :=
  asserting s (source ∈ s.valid)
    { s with
      alive := insert target s.alive
      valid := insert target (s.valid.erase source)
      guard := Function.update s.guard target none }

def destroyed (s : State Sem Thread Object) (token : Object) : State Sem Thread Object :=
  asserting s (token ∉ s.valid) { s with alive := s.alive.erase token }

def goto (s : State Sem Thread Object) (t : Thread) (pc : Pc Sem Object) :
    State Sem Thread Object :=
  { s with pc := Function.update s.pc t pc }

def act (s : State Sem Thread Object) (t : Thread) :
    Op Sem Object → Option (State Sem Thread Object)
  | .acquire sem => guarded (s.pc t = .outside) (goto s t (.acquiring sem false))
  | .makeGuard sem => guarded (s.pc t = .outside) (goto s t (.acquiring sem true))
  | .take => match s.pc t with
      | .acquiring sem guard => (Semaphore.acquire (s.counter sem)).map fun left =>
          goto { s with counter := Function.update s.counter sem left } t
            (.constructing sem guard)
      | _ => none
  -- `return Token{}` constructs the result, or the member of the Guard, in place.
  | .construct token => match s.pc t with
      | .constructing sem guard => guarded (token ∉ s.alive)
          (goto
            { s with
              alive := insert token s.alive
              valid := insert token s.valid
              guard := Function.update s.guard token (if guard then some sem else none) }
            t .outside)
      | _ => none
  | .move source target =>
      guarded (s.pc t = .outside ∧ s.Free source ∧ s.guard source = none ∧ target ∉ s.alive)
        (moved s source target)
  | .release sem token =>
      guarded (s.pc t = .outside ∧ s.Free token ∧ s.guard token = none)
        (goto s t (.releasing sem token false))
  | .destroyGuard token => match s.guard token with
      | some host => guarded (s.pc t = .outside ∧ s.Free token)
          (goto s t (.releasing host token true))
      | none => none
  | .give => match s.pc t with
      | .releasing sem token guard => some
          (goto
            { s with counter := Function.update s.counter sem (Semaphore.release (s.counter sem)) }
            t (.invalidating token guard))
      | _ => none
  | .invalidate => match s.pc t with
      | .invalidating token guard => some
          (asserting s (token ∈ s.valid)
            (goto { s with valid := s.valid.erase token } t
              (if guard then .destroying token else .outside)))
      | _ => none
  | .destroyMember => match s.pc t with
      | .destroying token => some (destroyed (goto s t .outside) token)
      | _ => none
  | .destroy token =>
      guarded (s.pc t = .outside ∧ s.Free token ∧ s.guard token = none) (destroyed s token)

def step (s : State Sem Thread Object) :
    Thread × Op Sem Object → Option (State Sem Thread Object)
  | (t, op) => if s.fired = true then none else act s t op

theorem step_eq_some {s after : State Sem Thread Object} {t : Thread} {op : Op Sem Object} :
    step s (t, op) = some after ↔ s.fired = false ∧ act s t op = some after := by
  cases stopped : s.fired <;> simp [step, stopped]

end Machine

/-! What the program promises: Release is called with valid tokens, or every acquired
token is released once from where it is. -/

def ReleasesValid (s : State Sem Thread Object) : Thread × Op Sem Object → Prop
  | (_, .release _ token) => token ∈ s.valid
  | _ => True

instance [DecidableEq Object] (s : State Sem Thread Object) (label : Thread × Op Sem Object) :
    Decidable (ReleasesValid s label) :=
  match label with
  | (_, .release _ token) => inferInstanceAs (Decidable (token ∈ s.valid))
  | (_, .acquire _) | (_, .makeGuard _) | (_, .take) | (_, .construct _) | (_, .move _ _)
  | (_, .destroyGuard _) | (_, .give) | (_, .invalidate) | (_, .destroyMember)
  | (_, .destroy _) => .isTrue trivial

def Fits (s : State Sem Thread Object) : Thread × Op Sem Object → Prop
  | (t, .give) => ∀ sem token guard, s.pc t = .releasing sem token guard →
      (s.counter sem).toNat + 1 < 2 ^ 64
  | _ => True

/-- What a statement of the program does to the objects at which the tokens are that were
acquired and not released. -/
def record [DecidableEq Object] (tokens : Finset Object) : Thread × Op Sem Object → Finset Object
  | (_, .construct token) => insert token tokens
  | (_, .move source target) => insert target (tokens.erase source)
  | (_, .release _ token) => tokens.erase token
  | (_, .destroyGuard token) => tokens.erase token
  | _ => tokens

/-- The program moves a token from where it is, releases it from there and destroys no
object at which a token is. -/
def Keeps (tokens : Finset Object) : Thread × Op Sem Object → Prop
  | (_, .move source _) => source ∈ tokens
  | (_, .release _ token) => token ∈ tokens
  | (_, .destroy token) => token ∉ tokens
  | _ => True

/-- Every acquired token is released at most once, from the object to which it was moved,
and no object is destroyed while a token is there: from a point of the program on at which
`tokens` are the objects with a token. -/
def ReleasedOnce [DecidableEq Object] (tokens : Finset Object) :
    List (Thread × Op Sem Object) → Prop
  | [] => True
  | label :: rest => Keeps tokens label ∧ ReleasedOnce (record tokens label) rest

theorem releasedOnce_snoc [DecidableEq Object] {objects : Finset Object}
    {trace : List (Thread × Op Sem Object)} {label : Thread × Op Sem Object} :
    ReleasedOnce objects (trace ++ [label]) ↔
      ReleasedOnce objects trace ∧ Keeps (trace.foldl record objects) label := by
  induction trace generalizing objects with
  | nil => simp [ReleasedOnce]
  | cons first rest ih => simp [ReleasedOnce, ih, and_assoc]

def begun : Op Sem Object → ℕ
  | .release _ _ => 1
  | .destroyGuard _ => 1
  | _ => 0

def made : Op Sem Object → ℕ
  | .construct _ => 1
  | _ => 0

/-! What calls under way rely on. -/

def Pc.plain : Pc Sem Object → Option Object
  | .releasing _ token false => some token
  | .invalidating token false => some token
  | _ => none

@[simp] theorem handed_outside : (Pc.outside : Pc Sem Object).handed = none := rfl

@[simp] theorem refers_outside : (Pc.outside : Pc Sem Object).refers = none := rfl

theorem refers_of_handed {pc : Pc Sem Object} {token : Object} (handed : pc.handed = some token) :
    pc.refers = some token := by
  cases pc <;> simp_all [Pc.handed, Pc.refers]

/-- What a call may rely on about the token it refers to: the object is alive, valid as
long as it is handed to a Release, and no member of a Guard where no Guard calls. -/
structure Backed (s : State Sem Thread Object) (pc : Pc Sem Object) (token : Object) : Prop where
  present : token ∈ s.alive
  valid : token ∈ s.valid ↔ pc.handed = some token
  plain : pc.plain = some token → s.guard token = none

structure Inv (s : State Sem Thread Object) : Prop where
  within : s.valid ⊆ s.alive
  single : ∀ t u token, (s.pc t).refers = some token → (s.pc u).refers = some token → t = u
  backed : ∀ t token, (s.pc t).refers = some token → Backed s (s.pc t) token
  guards : ∀ token ∈ s.alive, s.guard token ≠ none → (∀ t, (s.pc t).refers ≠ some token) →
    token ∈ s.valid

theorem init_inv (tokens : Sem → UInt64) : Inv (init tokens : State Sem Thread Object) := by
  constructor
  · exact Finset.Subset.refl _
  · intro t u token mine
    cases mine
  · intro t token mine
    cases mine
  · intro token present
    cases present

theorem Inv.handed_valid {s : State Sem Thread Object} (inv : Inv s) {t : Thread} {token : Object}
    (handed : (s.pc t).handed = some token) : token ∈ s.valid :=
  (inv.backed t token (refers_of_handed handed)).valid.mpr handed

theorem Inv.unhanded {s : State Sem Thread Object} (inv : Inv s) {token : Object}
    (fresh : token ∉ s.alive) (u : Thread) : (s.pc u).handed ≠ some token :=
  fun mine => fresh (inv.backed u token (refers_of_handed mine)).present

section Steps
variable [DecidableEq Thread] {s after : State Sem Thread Object} {t : Thread}
  {next : Pc Sem Object}

/-- The step rule. One thread changes its place; the tokens that other calls refer to stay
as they are. -/
theorem Inv.change (inv : Inv s) (pc : after.pc = Function.update s.pc t next)
    (within : after.valid ⊆ after.alive)
    (others : ∀ u token, u ≠ t → (s.pc u).refers = some token → token ∈ after.alive ∧
      (token ∈ after.valid ↔ token ∈ s.valid) ∧ after.guard token = s.guard token ∧
      next.refers ≠ some token)
    (own : ∀ token, next.refers = some token → Backed after next token)
    (guards : ∀ token ∈ after.alive, after.guard token ≠ none → next.refers ≠ some token →
      (∀ u, u ≠ t → (s.pc u).refers ≠ some token) → token ∈ after.valid) : Inv after := by
  have here : after.pc t = next := by rw [pc, Function.update_self]
  have there : ∀ u, u ≠ t → after.pc u = s.pc u := fun u other => by
    rw [pc, Function.update_of_ne other]
  constructor
  · exact within
  · intro u v token first second
    by_cases mine : u = t <;> by_cases yours : v = t
    · rw [mine, yours]
    · rw [mine, here] at first
      rw [there v yours] at second
      exact absurd first (others v token yours second).2.2.2
    · rw [yours, here] at second
      rw [there u mine] at first
      exact absurd second (others u token mine first).2.2.2
    · rw [there u mine] at first
      rw [there v yours] at second
      exact inv.single u v token first second
  · intro u token refers
    by_cases mine : u = t
    · rw [mine, here] at refers ⊢
      exact own token refers
    · rw [there u mine] at refers ⊢
      rcases others u token mine refers with ⟨present, valid, guard, _⟩
      have before := inv.backed u token refers
      exact ⟨present, valid.trans before.valid, fun plain => guard.trans (before.plain plain)⟩
  · intro token present guarded' free
    apply guards token present guarded' (here ▸ free t)
    intro u other
    rw [← there u other]
    exact free u

theorem Inv.still (inv : Inv s) (pc : after.pc = Function.update s.pc t next)
    (refers : next.refers = (s.pc t).refers) (handed : next.handed = (s.pc t).handed)
    (plain : next.plain = (s.pc t).plain) (alive : after.alive = s.alive)
    (valid : after.valid = s.valid) (guard : after.guard = s.guard) : Inv after := by
  apply inv.change pc
  · rw [valid, alive]
    exact inv.within
  · intro u token other mine
    rw [alive, valid, guard, refers]
    exact ⟨(inv.backed u token mine).present, Iff.rfl, rfl,
      fun yours => other (inv.single u t token mine yours)⟩
  · intro token mine
    have before := inv.backed t token (refers ▸ mine)
    constructor
    · rw [alive]
      exact before.present
    · rw [valid, handed]
      exact before.valid
    · rw [plain, guard]
      exact before.plain
  · rw [alive, valid, guard, refers]
    intro token present guarded' mine free
    apply inv.guards token present guarded'
    intro u
    by_cases same : u = t
    · rw [same]
      exact mine
    · exact free u same

theorem goto_same (here : s.pc t = next) : goto s t next = s := by
  rw [goto, ← here, Function.update_eq_self]

end Steps

section Held
variable [DecidableEq Object] [Fintype Thread]

def held (s : State Sem Thread Object) : Finset Object :=
  s.valid.filter fun token => ∀ t, (s.pc t).handed ≠ some token

@[simp] theorem mem_held {s : State Sem Thread Object} {token : Object} :
    token ∈ held s ↔ token ∈ s.valid ∧ ∀ t, (s.pc t).handed ≠ some token := by
  simp [held]

theorem free_held {s : State Sem Thread Object} {token : Object} (free : s.Free token)
    (valid : token ∈ s.valid) : token ∈ held s :=
  mem_held.mpr ⟨valid, fun u handed => free.2 u (refers_of_handed handed)⟩

variable [DecidableEq Thread] {s after : State Sem Thread Object} {t : Thread}
  {next : Pc Sem Object}

theorem held_change (pc : after.pc = Function.update s.pc t next) {token : Object} :
    token ∈ held after ↔ token ∈ after.valid ∧ next.handed ≠ some token ∧
      ∀ u, u ≠ t → (s.pc u).handed ≠ some token := by
  rw [mem_held, pc]
  refine and_congr_right fun _ => ?_
  constructor
  · intro unused
    refine ⟨by simpa using unused t, fun u other => ?_⟩
    simpa [Function.update_of_ne other] using unused u
  · rintro ⟨mine, unused⟩ u
    by_cases same : u = t
    · rw [same, Function.update_self]
      exact mine
    · rw [Function.update_of_ne same]
      exact unused u same

theorem held_outside (pc : after.pc = Function.update s.pc t .outside)
    (nothing : (s.pc t).handed = none) {token : Object} :
    token ∈ held after ↔ token ∈ after.valid ∧ ∀ u, (s.pc u).handed ≠ some token := by
  rw [held_change pc]
  refine and_congr_right fun _ => ?_
  constructor
  · rintro ⟨_, unused⟩ u
    by_cases same : u = t
    · simp [same, nothing]
    · exact unused u same
  · exact fun unused => ⟨nofun, fun u _ => unused u⟩

theorem held_still (pc : after.pc = Function.update s.pc t next)
    (handed : next.handed = (s.pc t).handed) (valid : after.valid = s.valid) :
    held after = held s := by
  ext token
  rw [held_change pc, held_change (Function.update_eq_self t s.pc).symm, handed, valid]

end Held

section Effects
variable [DecidableEq Thread] [DecidableEq Object] {s : State Sem Thread Object} {t : Thread}
  {token : Object}

theorem passes [Fintype Thread] (inv : Inv s) {pc : Pc Sem Object} (here : s.pc t = pc)
    (counter : Sem → UInt64) (next : Pc Sem Object) (refers : next.refers = pc.refers)
    (handed : next.handed = pc.handed) (plain : next.plain = pc.plain) :
    Inv (goto { s with counter := counter } t next) ∧
    held (goto { s with counter := counter } t next) = held s := by
  subst here
  exact ⟨inv.still rfl refers handed plain rfl rfl rfl, held_still rfl handed rfl⟩

theorem begins (inv : Inv s) {valid : Finset Object} {host : Option Sem}
    (nothing : (s.pc t).refers = none) (fresh : token ∉ s.alive)
    (kept : ∀ other ∈ s.alive, s.guard other ≠ none ∨ (∃ u, (s.pc u).refers = some other) →
      (other ∈ valid ↔ other ∈ s.valid))
    (has : token ∈ valid) (within : valid ⊆ insert token s.alive) :
    Inv (goto
      { s with
        alive := insert token s.alive
        valid := valid
        guard := Function.update s.guard token host } t .outside) := by
  apply inv.change
  · rfl
  · exact within
  · intro u other _ mine
    have present := (inv.backed u other mine).present
    refine ⟨Finset.mem_insert_of_mem present, kept other present (Or.inr ⟨u, mine⟩), ?_, nofun⟩
    simp [goto, Function.update_of_ne (ne_of_mem_of_not_mem present fresh)]
  · intro other mine
    cases mine
  · intro other present guarded' _ unused
    rcases Finset.mem_insert.mp present with rfl | old
    · exact has
    · have before : s.guard other ≠ none := by
        simpa [goto, Function.update_of_ne (ne_of_mem_of_not_mem old fresh)] using guarded'
      apply (kept other old (Or.inl before)).mpr
      apply inv.guards other old before
      intro u
      by_cases same : u = t
      · simp [same, nothing]
      · exact unused u same

theorem constructs [Fintype Thread] (inv : Inv s) {sem : Sem} {guard : Bool}
    (here : s.pc t = .constructing sem guard) (fresh : token ∉ s.alive) (host : Option Sem)
    {after : State Sem Thread Object}
    (next : after = goto
      { s with
        alive := insert token s.alive
        valid := insert token s.valid
        guard := Function.update s.guard token host } t .outside) :
    Inv after ∧ held after = insert token (held s) := by
  have unhanded := inv.unhanded fresh
  subst next
  constructor
  · apply begins inv (by rw [here]; rfl) fresh
    · intro other present _
      simp [ne_of_mem_of_not_mem present fresh]
    · exact Finset.mem_insert_self _ _
    · exact Finset.insert_subset_insert _ inv.within
  · ext other
    rw [held_outside rfl (by rw [here]; rfl), Finset.mem_insert, mem_held]
    simp only [goto, Finset.mem_insert]
    grind

theorem moves [Fintype Thread] (inv : Inv s) {source target : Object} (outside : s.pc t = .outside)
    (free : s.Free source) (unguarded : s.guard source = none) (fresh : target ∉ s.alive)
    (valid : source ∈ s.valid) {after : State Sem Thread Object}
    (next : after =
      { s with
        alive := insert target s.alive
        valid := insert target (s.valid.erase source)
        guard := Function.update s.guard target none }) :
    Inv after ∧ held after = insert target ((held s).erase source) := by
  have unhanded := inv.unhanded fresh
  constructor
  · have here : after.pc t = .outside := by rw [next, outside]
    rw [← goto_same here, next]
    apply begins inv (by rw [outside]; rfl) fresh
    · intro other present attended
      have elsewhere := ne_of_mem_of_not_mem present fresh
      have different : other ≠ source := by
        rintro rfl
        rcases attended with guarded' | ⟨u, mine⟩
        · exact guarded' unguarded
        · exact free.2 u mine
      simp [elsewhere, different]
    · exact Finset.mem_insert_self _ _
    · exact Finset.insert_subset_insert _ ((Finset.erase_subset _ _).trans inv.within)
  · ext other
    simp only [next, mem_held, Finset.mem_insert, Finset.mem_erase]
    grind

theorem ends (inv : Inv s) (spent : token ∉ s.valid)
    (others : ∀ u, u ≠ t → (s.pc u).refers ≠ some token)
    (own : ∀ other, (s.pc t).refers = some other → other = token) :
    Inv (goto { s with alive := s.alive.erase token } t .outside) := by
  apply inv.change
  · rfl
  · intro other present
    exact Finset.mem_erase.mpr ⟨ne_of_mem_of_not_mem present spent, inv.within present⟩
  · intro u other away mine
    have different : other ≠ token := by
      rintro rfl
      exact others u away mine
    exact ⟨Finset.mem_erase.mpr ⟨different, (inv.backed u other mine).present⟩, Iff.rfl, rfl, nofun⟩
  · intro other mine
    cases mine
  · intro other present guarded' _ unused
    rcases Finset.mem_erase.mp present with ⟨different, present⟩
    apply inv.guards other present guarded'
    intro u mine
    by_cases same : u = t
    · exact different (own other (same ▸ mine))
    · exact unused u same mine

theorem invalidates (inv : Inv s) {guard : Bool} (here : s.pc t = .invalidating token guard) :
    Inv (goto { s with valid := s.valid.erase token } t
      (if guard then .destroying token else .outside)) := by
  have mine : (s.pc t).refers = some token := by rw [here, Pc.refers]
  have before := inv.backed t token mine
  apply inv.change
  · rfl
  · exact (Finset.erase_subset token s.valid).trans inv.within
  · intro u other away yours
    have different : other ≠ token := by
      rintro rfl
      exact away (inv.single u t other yours mine)
    refine ⟨(inv.backed u other yours).present, by simp [goto, different], rfl, ?_⟩
    cases guard with
    | true => exact fun same => different (Option.some.inj same).symm
    | false => exact nofun
  · intro other still
    cases guard with
    | true =>
        cases still
        exact ⟨before.present, by simp [goto, Pc.handed], nofun⟩
    | false => cases still
  · intro other present guarded' still unused
    have different : other ≠ token := by
      rintro rfl
      cases guard with
      | true => exact still rfl
      | false => exact guarded' (before.plain (by rw [here, Pc.plain]))
    refine Finset.mem_erase.mpr ⟨different, inv.guards other present guarded' fun u yours => ?_⟩
    by_cases same : u = t
    · rw [same, mine] at yours
      exact different (Option.some.inj yours).symm
    · exact unused u same yours

theorem invalidates_held [Fintype Thread] {guard : Bool}
    (here : s.pc t = .invalidating token guard) :
    held (goto { s with valid := s.valid.erase token } t
      (if guard then .destroying token else .outside)) = held s := by
  have unhanded : Pc.handed (if guard then Pc.destroying token else (.outside : Pc Sem Object)) =
      none := by
    cases guard <;> rfl
  ext other
  rw [held_change rfl, held_change (Function.update_eq_self t s.pc).symm, unhanded, here]
  simp only [goto, Pc.handed, Finset.mem_erase]
  grind

theorem starts [Fintype Thread] (inv : Inv s) (outside : s.pc t = .outside) (free : s.Free token)
    (valid : token ∈ s.valid) (sem : Sem) (guard : Bool)
    (plain : guard = false → s.guard token = none) :
    Inv (goto s t (.releasing sem token guard)) ∧
    held (goto s t (.releasing sem token guard)) = (held s).erase token := by
  constructor
  · apply inv.change
    · rfl
    · exact inv.within
    · intro u other _ mine
      refine ⟨(inv.backed u other mine).present, Iff.rfl, rfl, ?_⟩
      rintro ⟨⟩
      exact free.2 u mine
    · rintro other ⟨⟩
      refine ⟨free.1, by simp [goto, valid, Pc.handed], fun own => plain ?_⟩
      cases guard with
      | false => rfl
      | true => cases own
    · intro other present guarded' _ unused
      apply inv.guards other present guarded'
      intro u
      by_cases same : u = t
      · simp [same, outside]
      · exact unused u same
  · ext other
    rw [held_change rfl, Finset.mem_erase, held_change (Function.update_eq_self t s.pc).symm]
    simp only [goto, Pc.handed, outside]
    grind

end Effects

section Step
variable [DecidableEq Sem] [DecidableEq Thread] [DecidableEq Object] [Fintype Thread]
  {s after : State Sem Thread Object} {t : Thread} {op : Op Sem Object}

structure Effect (s : State Sem Thread Object) (t : Thread) (op : Op Sem Object)
    (after : State Sem Thread Object) : Prop where
  keeps : Keeps (held s) (t, op)
  held : held after = record (held s) (t, op)
  card : (TaggedSemaphore.held after).card + begun op = (TaggedSemaphore.held s).card + made op
  going : after.fired = s.fired

/-- A step does to the valid tokens what the program says, or an assertion fires at a
statement that takes a token from where none is or destroys one. -/
def Acts (s : State Sem Thread Object) (t : Thread) (op : Op Sem Object)
    (after : State Sem Thread Object) : Prop :=
  Inv after ∧ (Effect s t op after ∨ ¬ Keeps (held s) (t, op) ∧ after = { s with fired := true })

omit [DecidableEq Sem] [DecidableEq Thread] [DecidableEq Object] [Fintype Thread] in
theorem Inv.fires (inv : Inv s) : Inv { s with fired := true } := by
  refine ⟨inv.within, inv.single, fun t token mine => ?_, inv.guards⟩
  have before := inv.backed t token mine
  exact ⟨before.present, before.valid, before.plain⟩

theorem acquire_acts {sem : Sem} (inv : Inv s) (taken : act s t (.acquire sem) = some after) :
    Acts s t (.acquire sem) after := by
  rcases guarded_eq_some.mp taken with ⟨here, rfl⟩
  rcases passes inv here s.counter (.acquiring sem false) rfl rfl rfl with ⟨kept, still⟩
  exact ⟨kept, .inl ⟨trivial, still, congrArg Finset.card still, rfl⟩⟩

theorem makeGuard_acts {sem : Sem} (inv : Inv s) (taken : act s t (.makeGuard sem) = some after) :
    Acts s t (.makeGuard sem) after := by
  rcases guarded_eq_some.mp taken with ⟨here, rfl⟩
  rcases passes inv here s.counter (.acquiring sem true) rfl rfl rfl with ⟨kept, still⟩
  exact ⟨kept, .inl ⟨trivial, still, congrArg Finset.card still, rfl⟩⟩

theorem take_acts (inv : Inv s) (taken : act s t .take = some after) : Acts s t .take after := by
  cases here : s.pc t with
  | acquiring sem guard =>
      simp only [act, here, Option.map_eq_some_iff] at taken
      rcases taken with ⟨left, _, rfl⟩
      rcases passes inv here _ (.constructing sem guard) rfl rfl rfl with ⟨kept, still⟩
      exact ⟨kept, .inl ⟨trivial, still, congrArg Finset.card still, rfl⟩⟩
  | _ => simp [act, here] at taken

theorem give_acts (inv : Inv s) (taken : act s t .give = some after) : Acts s t .give after := by
  cases here : s.pc t with
  | releasing sem token guard =>
      simp only [act, here, Option.some.injEq] at taken
      subst taken
      have alike : (Pc.invalidating token guard : Pc Sem Object).plain =
          (Pc.releasing sem token guard).plain := by cases guard <;> rfl
      rcases passes inv here _ (.invalidating token guard) rfl rfl alike with ⟨kept, still⟩
      exact ⟨kept, .inl ⟨trivial, still, congrArg Finset.card still, rfl⟩⟩
  | _ => simp [act, here] at taken

theorem construct_acts {token : Object} (inv : Inv s)
    (taken : act s t (.construct token) = some after) : Acts s t (.construct token) after := by
  cases here : s.pc t with
  | constructing sem guard =>
      simp only [act, here, guarded_eq_some] at taken
      rcases taken with ⟨fresh, rfl⟩
      rcases constructs inv here fresh _ rfl with ⟨kept, more⟩
      have new : token ∉ held s := fun old => fresh (inv.within (mem_held.mp old).1)
      refine ⟨kept, .inl ⟨trivial, more, ?_, rfl⟩⟩
      rw [more, Finset.card_insert_of_notMem new]
      rfl
  | _ => simp [act, here] at taken

theorem move_acts {source target : Object} (inv : Inv s)
    (taken : act s t (.move source target) = some after) :
    Acts s t (.move source target) after := by
  rcases guarded_eq_some.mp taken with ⟨⟨here, free, unguarded, fresh⟩, rfl⟩
  by_cases valid : source ∈ s.valid
  · rw [moved, asserting, if_pos valid]
    rcases moves inv here free unguarded fresh valid rfl with ⟨kept, moved⟩
    have tracked := free_held free valid
    have new : target ∉ (held s).erase source := fun old =>
      fresh (inv.within (mem_held.mp (Finset.mem_of_mem_erase old)).1)
    refine ⟨kept, .inl ⟨tracked, moved, ?_, rfl⟩⟩
    rw [moved, Finset.card_insert_of_notMem new, Finset.card_erase_add_one tracked]
    rfl
  · rw [moved, asserting, if_neg valid]
    exact ⟨inv.fires, .inr ⟨fun tracked => valid (mem_held.mp tracked).1, rfl⟩⟩

theorem release_acts {sem : Sem} {token : Object} (inv : Inv s)
    (admitted : ReleasesValid s (t, .release sem token))
    (taken : act s t (.release sem token) = some after) : Acts s t (.release sem token) after := by
  rcases guarded_eq_some.mp taken with ⟨⟨here, free, unguarded⟩, rfl⟩
  rcases starts inv here free admitted sem false fun _ => unguarded with ⟨kept, less⟩
  have tracked := free_held free admitted
  refine ⟨kept, .inl ⟨tracked, less, ?_, rfl⟩⟩
  rw [less]
  exact Finset.card_erase_add_one tracked

theorem destroyGuard_acts {token : Object} (inv : Inv s)
    (taken : act s t (.destroyGuard token) = some after) :
    Acts s t (.destroyGuard token) after := by
  cases host : s.guard token with
  | some sem =>
      simp only [act, host, guarded_eq_some] at taken
      rcases taken with ⟨⟨here, free⟩, rfl⟩
      have valid : token ∈ s.valid := inv.guards token free.1 (by simp [host]) free.2
      rcases starts inv here free valid sem true Bool.noConfusion with ⟨kept, less⟩
      refine ⟨kept, .inl ⟨trivial, less, ?_, rfl⟩⟩
      rw [less]
      exact Finset.card_erase_add_one (free_held free valid)
  | none => simp [act, host] at taken

theorem invalidate_acts (inv : Inv s) (taken : act s t .invalidate = some after) :
    Acts s t .invalidate after := by
  cases here : s.pc t with
  | invalidating token guard =>
      simp only [act, here, Option.some.injEq] at taken
      subst taken
      have valid : token ∈ s.valid := inv.handed_valid (by rw [here, Pc.handed])
      have still := invalidates_held here
      rw [asserting, if_pos valid]
      exact ⟨invalidates inv here, .inl ⟨trivial, still, congrArg Finset.card still, rfl⟩⟩
  | _ => simp [act, here] at taken

theorem destroyMember_acts (inv : Inv s) (taken : act s t .destroyMember = some after) :
    Acts s t .destroyMember after := by
  cases here : s.pc t with
  | destroying token =>
      simp only [act, here, Option.some.injEq] at taken
      subst taken
      have mine : (s.pc t).refers = some token := by rw [here, Pc.refers]
      have spent : token ∉ s.valid := by
        simp [(inv.backed t token mine).valid, here, Pc.handed]
      have kept := ends inv spent (fun u away yours => away (inv.single u t token yours mine))
        fun other yours => Option.some.inj (yours.symm.trans mine)
      have still : held (goto { s with alive := s.alive.erase token } t .outside) = held s :=
        held_still rfl (by rw [here]; rfl) rfl
      rw [destroyed, asserting, if_pos (by exact spent)]
      exact ⟨kept, .inl ⟨trivial, still, congrArg Finset.card still, rfl⟩⟩
  | _ => simp [act, here] at taken

theorem destroy_acts {token : Object} (inv : Inv s)
    (taken : act s t (.destroy token) = some after) : Acts s t (.destroy token) after := by
  rcases guarded_eq_some.mp taken with ⟨⟨here, free, unguarded⟩, rfl⟩
  by_cases valid : token ∈ s.valid
  · rw [destroyed, asserting, if_neg (not_not.mpr valid)]
    exact ⟨inv.fires, .inr ⟨fun untracked => untracked (free_held free valid), rfl⟩⟩
  · have there : ({ s with alive := s.alive.erase token } : State Sem Thread Object).pc t =
      .outside := here
    have kept := ends inv valid (fun u _ => free.2 u) (t := t) (by simp [here])
    rw [goto_same there] at kept
    rw [destroyed, asserting, if_pos valid]
    exact ⟨kept, .inl ⟨fun tracked => valid (mem_held.mp tracked).1, rfl, rfl, rfl⟩⟩

theorem act_effect (inv : Inv s) (admitted : ReleasesValid s (t, op))
    (taken : act s t op = some after) : Acts s t op after := by
  cases op with
  | acquire sem => exact acquire_acts inv taken
  | makeGuard sem => exact makeGuard_acts inv taken
  | take => exact take_acts inv taken
  | give => exact give_acts inv taken
  | construct token => exact construct_acts inv taken
  | move source target => exact move_acts inv taken
  | release sem token => exact release_acts inv admitted taken
  | destroyGuard token => exact destroyGuard_acts inv taken
  | invalidate => exact invalidate_acts inv taken
  | destroyMember => exact destroyMember_acts inv taken
  | destroy token => exact destroy_acts inv taken

end Step

/-! Permits. -/

def Pc.produces : Pc Sem Object → Bool
  | .constructing _ _ => true
  | _ => false

def Pc.owes : Pc Sem Object → Bool
  | .releasing _ _ _ => true
  | _ => false

def weight (pc : Pc Sem Object) : ℕ := pc.produces.toNat + pc.owes.toNat

@[simp] theorem weight_acquiring (sem : Sem) (guard : Bool) :
    weight (.acquiring sem guard : Pc Sem Object) = 0 := rfl

@[simp] theorem weight_constructing (sem : Sem) (guard : Bool) :
    weight (.constructing sem guard : Pc Sem Object) = 1 := rfl

@[simp] theorem weight_releasing (sem : Sem) (token : Object) (guard : Bool) :
    weight (.releasing sem token guard) = 1 := rfl

@[simp] theorem weight_invalidating (token : Object) (guard : Bool) :
    weight (.invalidating token guard : Pc Sem Object) = 0 := rfl

section Flow
variable [Fintype Sem] [Fintype Thread]

def permits (s : State Sem Thread Object) : ℕ := ∑ sem, (s.counter sem).toNat

def flow (s : State Sem Thread Object) : ℕ :=
  permits s + headcount Pc.produces s.pc + headcount Pc.owes s.pc

/-- The counters, the valid tokens no Release has, the Acquires that have a permit and no
Token yet, and the Releases that have a Token and have not given the permit back. -/
def total [DecidableEq Object] (s : State Sem Thread Object) : ℕ :=
  permits s + (held s).card + headcount Pc.produces s.pc + headcount Pc.owes s.pc

variable {s after : State Sem Thread Object} {t : Thread}

theorem total_init [DecidableEq Object] (tokens : Sem → UInt64) :
    total (init tokens : State Sem Thread Object) = ∑ sem, (tokens sem).toNat := by
  simp [total, init, permits, held, headcount, Pc.produces, Pc.owes]

theorem fits_small [DecidableEq Object] {op : Op Sem Object} (small : total s < 2 ^ 64) :
    Fits s (t, op) := by
  cases op with
  | give =>
      intro sem token guard here
      have counter : (s.counter sem).toNat ≤ permits s :=
        Finset.single_le_sum (f := fun other => (s.counter other).toNat)
          (fun _ _ => Nat.zero_le _) (Finset.mem_univ sem)
      have owing : 0 < headcount Pc.owes s.pc := headcount_pos_of (t := t) (by rw [here]; rfl)
      unfold total at small
      omega
  | _ => trivial

theorem permits_update [DecidableEq Sem] (counter : Sem → UInt64) (sem : Sem) (value : UInt64) :
    ∑ other, (Function.update counter sem value other).toNat + (counter sem).toNat =
      ∑ other, (counter other).toNat + value.toNat := by
  have elsewhere : ∑ other ∈ Finset.univ.erase sem,
      (Function.update counter sem value other).toNat =
        ∑ other ∈ Finset.univ.erase sem, (counter other).toNat :=
    Finset.sum_congr rfl fun other member => by
      rw [Function.update_of_ne (Finset.ne_of_mem_erase member)]
  have now := Finset.add_sum_erase Finset.univ
    (fun other => (Function.update counter sem value other).toNat) (Finset.mem_univ sem)
  have before := Finset.add_sum_erase Finset.univ (fun other => (counter other).toNat)
    (Finset.mem_univ sem)
  simp only [Function.update_self] at now
  omega

theorem flow_goto [DecidableEq Thread] {before : State Sem Thread Object} {pc : Pc Sem Object}
    (here : s.pc t = pc) (next : Pc Sem Object) (same : before.pc = s.pc) :
    flow (goto before t next) + weight pc + permits s = flow s + weight next + permits before := by
  have first := headcount_update Pc.produces s.pc t next
  have second := headcount_update Pc.owes s.pc t next
  simp only [flow, weight, goto, permits, same, here] at *
  omega

theorem flow_still [DecidableEq Thread] {before : State Sem Thread Object} {pc : Pc Sem Object}
    (here : s.pc t = pc) (next : Pc Sem Object) (same : before.pc = s.pc)
    (counter : before.counter = s.counter) :
    flow (goto before t next) + weight pc = flow s + weight next := by
  have changed := flow_goto here next same
  have still : permits before = permits s := by rw [permits, permits, counter]
  omega

theorem flow_counter [DecidableEq Sem] [DecidableEq Thread] {pc : Pc Sem Object}
    (here : s.pc t = pc) (next : Pc Sem Object) (sem : Sem) (value : UInt64) :
    flow (goto { s with counter := Function.update s.counter sem value } t next) + weight pc +
      (s.counter sem).toNat = flow s + weight next + value.toNat := by
  have counted := permits_update s.counter sem value
  have same : ({ s with counter := Function.update s.counter sem value } :
    State Sem Thread Object).pc = s.pc := rfl
  have changed := flow_goto here next same
  simp only [permits] at changed
  omega

theorem flow_asserting {holds : Prop} [Decidable holds] (same : flow after = flow s) :
    flow (asserting s holds after) = flow s := by
  unfold asserting
  split
  · exact same
  · rfl

variable [DecidableEq Sem] [DecidableEq Thread] [DecidableEq Object] {op : Op Sem Object}

theorem flow_step (taken : act s t op = some after) :
    flow after + made op = flow s + begun op ∨
      ¬ Fits s (t, op) ∧ flow after + made op + 2 ^ 64 = flow s + begun op := by
  cases op with
  | acquire sem =>
      rcases guarded_eq_some.mp taken with ⟨here, rfl⟩
      exact .inl (flow_still here _ rfl rfl)
  | makeGuard sem =>
      rcases guarded_eq_some.mp taken with ⟨here, rfl⟩
      exact .inl (flow_still here _ rfl rfl)
  | take =>
      cases here : s.pc t with
      | acquiring sem guard =>
          simp only [act, here, Option.map_eq_some_iff] at taken
          rcases taken with ⟨left, took, rfl⟩
          rcases Semaphore.acquire_eq_some.mp took with ⟨free, rfl⟩
          have one := Semaphore.acquire_toNat free
          have changed := flow_counter here (.constructing sem guard) sem (s.counter sem - 1)
          simp only [weight_acquiring, weight_constructing, made, begun] at changed ⊢
          omega
      | _ => simp [act, here] at taken
  | give =>
      cases here : s.pc t with
      | releasing sem token guard =>
          simp only [act, here, Option.some.injEq] at taken
          subst taken
          have changed := flow_counter here (.invalidating token guard) sem
            (Semaphore.release (s.counter sem))
          simp only [weight_releasing, weight_invalidating, made, begun] at changed ⊢
          by_cases fits : (s.counter sem).toNat + 1 < 2 ^ 64
          · have one := Semaphore.release_toNat fits
            omega
          · have one := Semaphore.release_wraps fits
            refine .inr ⟨fun all => fits (all sem token guard here), ?_⟩
            omega
      | _ => simp [act, here] at taken
  | construct token =>
      cases here : s.pc t with
      | constructing sem guard =>
          simp only [act, here, guarded_eq_some] at taken
          rcases taken with ⟨_, rfl⟩
          exact .inl (flow_still here _ rfl rfl)
      | _ => simp [act, here] at taken
  | move source target =>
      rcases guarded_eq_some.mp taken with ⟨_, rfl⟩
      exact .inl (flow_asserting rfl)
  | release sem token =>
      rcases guarded_eq_some.mp taken with ⟨⟨here, _⟩, rfl⟩
      exact .inl (flow_still here _ rfl rfl)
  | destroyGuard token =>
      cases host : s.guard token with
      | some sem =>
          simp only [act, host, guarded_eq_some] at taken
          rcases taken with ⟨⟨here, _⟩, rfl⟩
          exact .inl (flow_still here _ rfl rfl)
      | none => simp [act, host] at taken
  | invalidate =>
      cases here : s.pc t with
      | invalidating token guard =>
          simp only [act, here, Option.some.injEq] at taken
          subst taken
          refine .inl (flow_asserting ?_)
          cases guard with
          | false => exact flow_still here _ rfl rfl
          | true => exact flow_still here _ rfl rfl
      | _ => simp [act, here] at taken
  | destroyMember =>
      cases here : s.pc t with
      | destroying token =>
          simp only [act, here, Option.some.injEq] at taken
          subst taken
          have gone := flow_still here .outside rfl rfl
          have same : flow (destroyed (goto s t .outside) token) = flow (goto s t .outside) :=
            flow_asserting rfl
          rw [← same] at gone
          exact .inl gone
      | _ => simp [act, here] at taken
  | destroy token =>
      rcases guarded_eq_some.mp taken with ⟨_, rfl⟩
      exact .inl (flow_asserting rfl)

theorem total_step (inv : Inv s) (admitted : ReleasesValid s (t, op))
    (taken : act s t op = some after) :
    total after = total s ∨ ¬ Fits s (t, op) ∧ total after + 2 ^ 64 = total s := by
  rcases act_effect inv admitted taken with ⟨_, effect | ⟨_, rfl⟩⟩
  · have tokens := effect.card
    rcases flow_step taken with kept | ⟨wraps, less⟩
    · left
      simp only [total, flow] at kept ⊢
      omega
    · refine .inr ⟨wraps, ?_⟩
      simp only [total, flow] at less ⊢
      omega
  · exact .inl rfl

end Flow

section Runs
variable [DecidableEq Sem] [DecidableEq Thread] [DecidableEq Object] [Fintype Thread]
  {tokens : Sem → UInt64} {s after : State Sem Thread Object}
  {trace : List (Thread × Op Sem Object)}

theorem reaches_inv (reached : Reaches step ReleasesValid (init tokens) trace s) : Inv s := by
  apply reached.invariant (init_inv tokens)
  rintro s ⟨t, op⟩ after inv admitted taken
  exact (act_effect inv admitted (step_eq_some.mp taken).2).1

theorem held_ledger (once : ReleasedOnce ∅ trace)
    (reached : Reaches step unrestricted (init tokens) trace s) :
    Reaches step ReleasesValid (init tokens) trace s ∧ held s = trace.foldl record ∅ ∧
      s.fired = false := by
  induction reached with
  | start => exact ⟨.start, by simp [held, init], rfl⟩
  | @next trace s after label reached _ taken ih =>
      rcases releasedOnce_snoc.mp once with ⟨earlier, kept⟩
      rcases ih earlier with ⟨valid, placed, going⟩
      rcases label with ⟨t, op⟩
      rw [← placed] at kept
      have admitted : ReleasesValid s (t, op) := by
        cases op with
        | release sem token => exact (mem_held.mp kept).1
        | _ => trivial
      have whole := Reaches.next (t, op) valid admitted taken
      rcases act_effect (reaches_inv valid) admitted (step_eq_some.mp taken).2
        with ⟨_, effect | ⟨broken, _⟩⟩
      · refine ⟨whole, ?_, effect.going.trans going⟩
        rw [effect.held, placed, List.foldl_append]
        rfl
      · exact absurd kept broken

variable [Fintype Sem]

theorem total_reaches (reached : Reaches step ReleasesValid (init tokens) trace s) :
    total s ≡ ∑ sem, (tokens sem).toNat [MOD 2 ^ 64] ∧ total s ≤ ∑ sem, (tokens sem).toNat := by
  induction reached with
  | start => simp [total_init, Nat.ModEq]
  | @next trace s after label reached admitted taken ih =>
      rcases ih with ⟨alike, bound⟩
      rcases total_step (reaches_inv reached) admitted (step_eq_some.mp taken).2
        with kept | ⟨_, less⟩
      · rw [kept]
        exact ⟨alike, bound⟩
      · refine ⟨Nat.ModEq.trans ?_ alike, by omega⟩
        rw [← less]
        simp [Nat.ModEq]

theorem total_fits (reached : Reaches step ReleasesValid (init tokens) trace s)
    (fits : Reaches step Fits (init tokens) trace s) :
    total s = ∑ sem, (tokens sem).toNat := by
  have whole := reached.both fits
  clear reached fits
  induction whole with
  | start => exact total_init tokens
  | next label reached admitted taken ih =>
      have before := reaches_inv (reached.weaken fun _ _ => And.left)
      rcases total_step before admitted.1 (step_eq_some.mp taken).2 with kept | ⟨wraps, _⟩
      · exact kept.trans ih
      · exact absurd admitted.2 wraps

theorem fits_always (small : ∑ sem, (tokens sem).toNat < 2 ^ 64)
    (reached : Reaches step ReleasesValid (init tokens) trace s) :
    Reaches step Fits (init tokens) trace s := by
  induction reached with
  | start => exact .start
  | next label reached _ taken ih =>
      exact .next label ih (fits_small ((total_reaches reached).2.trans_lt small)) taken

/-- Conservation of tokens. As long as Release gets valid tokens, the total keeps its
residue modulo 2^64, and it is what it was at first in every run in which no Release pushes
a counter past the last value of `size_t`; that is every run where the permits of all
semaphores together fit. Where every acquired token is released once, no matter how often
it moves, no assertion fires. -/
theorem tokens_conserved (reached : Reaches step unrestricted (init tokens) trace s) :
    (Reaches step ReleasesValid (init tokens) trace s →
      total s ≡ ∑ sem, (tokens sem).toNat [MOD 2 ^ 64] ∧
      (Reaches step Fits (init tokens) trace s → total s = ∑ sem, (tokens sem).toNat) ∧
      (∑ sem, (tokens sem).toNat < 2 ^ 64 → total s = ∑ sem, (tokens sem).toNat)) ∧
    (ReleasedOnce ∅ trace →
      Reaches step ReleasesValid (init tokens) trace s ∧ s.fired = false) := by
  constructor
  · intro valid
    exact ⟨(total_reaches valid).1, total_fits valid, fun small =>
      total_fits valid (fits_always small valid)⟩
  · intro once
    rcases held_ledger once reached with ⟨valid, _, going⟩
    exact ⟨valid, going⟩

end Runs

/-- A token of semaphore true is moved and then released into semaphore false, with the
permit given back and the token not yet invalid. -/
theorem tokens_conserved_between :
    ∃ (trace : List (Unit × Op Bool Bool)) (s : State Bool Unit Bool),
      run (restricted step ReleasesValid) (init Bool.toUInt64) trace = some s ∧
      s.valid = {false} ∧ s.counter true = 0 ∧ s.counter false = 1 ∧ total s = 1 ∧
      s.fired = false := by
  have ran : run (restricted step ReleasesValid) (init Bool.toUInt64 : State Bool Unit Bool)
      [((), .acquire true), ((), .take), ((), .construct true), ((), .move true false),
        ((), .destroy true), ((), .release false false), ((), .give)] = some _ := rfl
  have valid := run_reaches ran
  rcases tokens_conserved valid.free with ⟨conserved, sound⟩
  have once : ReleasedOnce ∅ [((), .acquire true), ((), .take), ((), .construct true),
      ((), .move true false), ((), .destroy true), ((), .release false false),
      (((), .give) : Unit × Op Bool Bool)] := by
    simp [ReleasedOnce, Keeps, record]
  exact ⟨_, _, ran, rfl, rfl, rfl, (conserved valid).2.2 (by decide), (sound once).2⟩

/-- A counter at its largest value is at 0 after one more permit. -/
theorem token_lost_on_overflow :
    ∃ (tokens : Bool → UInt64) (trace : List (Unit × Op Bool Unit)) (s : State Bool Unit Unit),
      Reaches step ReleasesValid (init tokens) trace s ∧
      total s ≠ ∑ sem, (tokens sem).toNat := by
  have ran : run (restricted step ReleasesValid)
      (init fun sem => if sem then 18446744073709551615 else 1 : State Bool Unit Unit)
      [((), .acquire false), ((), .take), ((), .construct ()), ((), .release true ()),
        ((), .give)] = some _ := rfl
  exact ⟨_, _, _, run_reaches ran, by decide⟩

end ConcurrencyCourse.TaggedSemaphore
