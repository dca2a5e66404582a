import ConcurrencyCourse.Atomic
import Mathlib.Data.Fintype.Basic

/-!
`Atomic::Exchange` among Loads and Stores of one cell. `AtomicExchangeSeqCst` is a
load and then a store, so another thread may write in between. Two machines: the
routines on store buffers, instruction by instruction, and a cell on which each
operation is one step. The first is explained by the second in the runs in which
nobody disturbs an Exchange under way.
-/

namespace ConcurrencyCourse.Exchange

open Interleaving StoreBuffer Atomic

/-- A word in memory or in a store buffer. `exchanged` records that the store of an
Exchange wrote it; no instruction reads it. -/
structure Word (Value : Type) where
  value : Value
  exchanged : Bool
  deriving DecidableEq

inductive Operation (Value : Type) where
  | load (value : Value)
  | store (value : Value)
  | exchange (old new : Value)
  deriving DecidableEq

inductive Label (Value : Type) where
  | load (word : Word Value)
  | store (value : Value)
  | exchangeLoad (word : Word Value) (new : Value)
  | exchangeStore (old new : Value)

inductive Pc (Control Value : Type) where
  | idle (here : Control)
  | exchanging (old new : Value) (next : Control)
  deriving DecidableEq

def Pc.loaded {Control Value : Type} : Pc Control Value → Option Value
  | .idle _ => none
  | .exchanging old _ _ => some old

section Routines
variable {Value : Type}

def Label.code : Label Value → Instruction Unit (Word Value)
  | .load word => atomicLoadSeqCst () word
  | .store value => atomicStoreSeqCst () { value, exchanged := false }
  | .exchangeLoad word _ => .load () word
  | .exchangeStore _ new => .store () { value := new, exchanged := true }

theorem exchange_code (mo : MemoryOrder) (word : Word Value) (new : Value) :
    [(Label.exchangeLoad word new).code, (Label.exchangeStore word.value new).code] =
      exchange mo () word { value := new, exchanged := true } := rfl

def Label.completes : Label Value → Option (Operation Value)
  | .load word => some (.load word.value)
  | .store value => some (.store value)
  | .exchangeLoad _ _ => none
  | .exchangeStore old new => some (.exchange old new)

end Routines

variable {Thread Control Value : Type}

def program [DecidableEq Value] (client : Thread → Control → Operation Value → Option Control) :
    Program Thread (Pc Control Value) (Label Value) Unit (Word Value) :=
  { code := Label.code
    goes := fun
      | t, .idle here, .load word => (client t here (.load word.value)).map .idle
      | t, .idle here, .store value => (client t here (.store value)).map .idle
      | t, .idle here, .exchangeLoad word new =>
          (client t here (.exchange word.value new)).map (.exchanging word.value new)
      | _, .exchanging old new next, .exchangeStore old' new' =>
          guarded (old' = old ∧ new' = new) (.idle next)
      | _, _, _ => none }

section Moves
variable {client : Thread → Control → Operation Value → Option Control} {t : Thread}

inductive Move (client : Thread → Control → Operation Value → Option Control) (t : Thread) :
    Pc Control Value → Label Value → Pc Control Value → Prop where
  | load {here next : Control} {word : Word Value}
      (may : client t here (.load word.value) = some next) :
      Move client t (.idle here) (.load word) (.idle next)
  | store {here next : Control} {value : Value}
      (may : client t here (.store value) = some next) :
      Move client t (.idle here) (.store value) (.idle next)
  | exchangeLoad {here next : Control} {word : Word Value} {new : Value}
      (may : client t here (.exchange word.value new) = some next) :
      Move client t (.idle here) (.exchangeLoad word new) (.exchanging word.value new next)
  | exchangeStore {old new : Value} {next : Control} :
      Move client t (.exchanging old new next) (.exchangeStore old new) (.idle next)

theorem goes_move [DecidableEq Value] {pc next : Pc Control Value} {label : Label Value}
    (goes : (program client).goes t pc label = some next) : Move client t pc label next := by
  cases pc with
  | idle here =>
      cases label with
      | load word =>
          obtain ⟨next, may, rfl⟩ := Option.map_eq_some_iff.mp goes
          exact .load may
      | store value =>
          obtain ⟨next, may, rfl⟩ := Option.map_eq_some_iff.mp goes
          exact .store may
      | exchangeLoad word new =>
          obtain ⟨next, may, rfl⟩ := Option.map_eq_some_iff.mp goes
          exact .exchangeLoad may
      | exchangeStore old new => cases goes
  | exchanging old new next =>
      cases label with
      | load word => cases goes
      | store value => cases goes
      | exchangeLoad word new => cases goes
      | exchangeStore old' new' =>
          obtain ⟨⟨rfl, rfl⟩, rfl⟩ := guarded_eq_some.mp goes
          exact .exchangeStore

theorem Move.idle {pc next : Pc Control Value} {label : Label Value}
    (move : Move client t pc label next) (quiet : ∀ word new, label ≠ .exchangeLoad word new) :
    next.loaded = none := by
  cases move with
  | load may => rfl
  | store may => rfl
  | exchangeLoad may => exact absurd rfl (quiet _ _)
  | exchangeStore => rfl

def Prepared (client : Thread → Control → Operation Value → Option Control) (t : Thread)
    (here : Control) : Pc Control Value → Prop
  | .idle now => here = now
  | .exchanging old new next => client t here (.exchange old new) = some next

end Moves

structure Cell (Thread Control Value : Type) where
  value : Value
  control : Thread → Control

def Cell.takes [DecidableEq Value] (cell : Cell Thread Control Value) :
    Operation Value → Option (Cell Thread Control Value)
  | .load value => guarded (cell.value = value) cell
  | .store value => some { cell with value := value }
  | .exchange old new => guarded (cell.value = old) { cell with value := new }

def atomicStep [DecidableEq Value] [DecidableEq Thread]
    (client : Thread → Control → Operation Value → Option Control)
    (cell : Cell Thread Control Value) :
    Thread × Operation Value → Option (Cell Thread Control Value)
  | (t, operation) => (client t (cell.control t) operation).bind fun next =>
      (cell.takes operation).map fun after =>
        { after with control := Function.update cell.control t next }

/-- An Exchange of the thread has its old value from memory and its new value is not
there yet: it has just loaded, or its store is the oldest of the buffer. -/
def between (s : StoreBuffer.State Thread Unit (Word Value) (Pc Control Value)) (t : Thread) :
    Bool :=
  match s.buffer t with
  | [] => (s.control t).loaded.isSome
  | (_, word) :: _ => word.exchanged

/-- Nobody else's Exchange is under way where a store reaches memory or an Exchange
loads from memory. -/
def Undisturbed (s : StoreBuffer.State Thread Unit (Word Value) (Pc Control Value)) :
    Thread × Act (Label Value) Unit (Word Value) → Prop
  | (t, .flush _ _) => ∀ u, u ≠ t → between s u = false
  | (t, .executes (.exchangeLoad _ _)) => s.buffer t = [] → ∀ u, u ≠ t → between s u = false
  | (_, .executes (.load _)) => True
  | (_, .executes (.store _)) => True
  | (_, .executes (.exchangeStore _ _)) => True

instance [Fintype Thread] [DecidableEq Thread] [DecidableEq Value]
    (s : StoreBuffer.State Thread Unit (Word Value) (Pc Control Value)) :
    (label : Thread × Act (Label Value) Unit (Word Value)) → Decidable (Undisturbed s label)
  | (t, .flush _ _) => inferInstanceAs (Decidable (∀ u, u ≠ t → between s u = false))
  | (t, .executes (.exchangeLoad _ _)) =>
      inferInstanceAs (Decidable (s.buffer t = [] → ∀ u, u ≠ t → between s u = false))
  | (_, .executes (.load _)) => .isTrue trivial
  | (_, .executes (.store _)) => .isTrue trivial
  | (_, .executes (.exchangeStore _ _)) => .isTrue trivial

/-- One total order of the operations on the cell: each thread's completed
operations in its own order with what they returned, ending where the thread is. -/
def Ordered [DecidableEq Value] [DecidableEq Thread]
    (client : Thread → Control → Operation Value → Option Control) (value : Value)
    (control : Thread → Control)
    (trace : List (Thread × Act (Label Value) Unit (Word Value)))
    (s : StoreBuffer.State Thread Unit (Word Value) (Pc Control Value)) : Prop :=
  ∃ order cell, Reaches (atomicStep client) unrestricted { value, control } order cell ∧
    (∀ t, (trace.filterMap (performed t)).filterMap Label.completes =
      order.filterMap (ofThread t)) ∧
    ∀ t here, s.control t = .idle here → cell.control t = here

section Shared
variable {client : Thread → Control → Operation Value → Option Control} {t : Thread}
  {shared : Shared Thread Unit (Word Value) (Pc Control Value)}

structure Matches (client : Thread → Control → Operation Value → Option Control)
    (shared : Shared Thread Unit (Word Value) (Pc Control Value))
    (cell : Cell Thread Control Value) : Prop where
  value : (shared.memory ()).value = cell.value
  place : ∀ t, Prepared client t (cell.control t) (shared.control t)
  fresh : ∀ t old, (shared.control t).loaded = some old → cell.value = old

def Alone (shared : Shared Thread Unit (Word Value) (Pc Control Value)) (t : Thread) : Prop :=
  ∀ u, u ≠ t → (shared.control u).loaded = none

theorem single_of_alone (alone : Alone shared t) (u v : Thread)
    (first : (shared.control u).loaded ≠ none) (second : (shared.control v).loaded ≠ none) :
    u = v := by
  have same : ∀ w, (shared.control w).loaded ≠ none → w = t := by
    intro w loaded
    by_contra other
    exact loaded (alone w other)
  rw [same u first, same v second]

variable [DecidableEq Thread]

theorem atomicStep_takes [DecidableEq Value] {cell after : Cell Thread Control Value}
    {operation : Operation Value} {next : Control}
    (may : client t (cell.control t) operation = some next)
    (takes : cell.takes operation = some after) :
    Reaches (atomicStep client) unrestricted cell [(t, operation)]
      { after with control := Function.update cell.control t next } := by
  have moved : atomicStep client cell (t, operation) =
      some { after with control := Function.update cell.control t next } := by
    simp [atomicStep, may, takes]
  exact .cons (t, operation) trivial moved .start

theorem Matches.move {cell : Cell Thread Control Value} {memory : Unit → Word Value}
    {value : Value} {here : Control} {next : Pc Control Value}
    (matched : Matches client shared cell)
    (same : (memory ()).value = value) (place : Prepared client t here next)
    (fresh : ∀ old, next.loaded = some old → value = old)
    (others : value = cell.value ∨ Alone shared t) :
    Matches client { memory, control := Function.update shared.control t next }
      { value, control := Function.update cell.control t here } := by
  refine ⟨same, fun u => ?_, fun u old loaded => ?_⟩
  · by_cases self : u = t
    · subst self
      simpa using place
    · simpa [self] using matched.place u
  · by_cases self : u = t
    · subst self
      exact fresh old (by simpa using loaded)
    · simp only [Function.update_of_ne self] at loaded
      cases others with
      | inl unchanged => exact unchanged.trans (matched.fresh u old loaded)
      | inr alone => simp [alone u self] at loaded

theorem completes_moves (u : Thread) (moves : List (Label Value)) :
    ((moves.map fun label => (t, label)).filterMap (ofThread u)).filterMap Label.completes =
      ((moves.filterMap Label.completes).map fun operation => (t, operation)).filterMap
        (ofThread u) := by
  by_cases self : t = u
  · subst self
    rw [ofThread_self, ofThread_self]
  · rw [ofThread_other self, ofThread_other self, List.filterMap_nil]

variable [DecidableEq Value]

theorem Matches.step {after : Shared Thread Unit (Word Value) (Pc Control Value)}
    {cell : Cell Thread Control Value} {label : Label Value} (matched : Matches client shared cell)
    (alone : label.code.stored = none ∨ Alone shared t)
    (taken : sharedStep (program client) shared (t, label) = some after) :
    ∃ cell', Reaches (atomicStep client) unrestricted cell
        (label.completes.toList.map fun operation => (t, operation)) cell' ∧
      Matches client after cell' ∧ (∀ u, u ≠ t → cell'.control u = cell.control u) := by
  obtain ⟨next, middle, goes, done, rfl⟩ := sharedStep_eq_some.mp taken
  have move := goes_move goes
  have place := matched.place t
  have elsewhere : ∀ (here : Control) (u : Thread), u ≠ t →
      Function.update cell.control t here u = cell.control u :=
    fun here u other => Function.update_of_ne other _ _
  generalize stands : shared.control t = pc at move place
  cases move with
  | @load here next word may =>
      obtain ⟨reads, rfl⟩ := guarded_eq_some.mp done
      cases place
      have value : cell.value = word.value := by rw [← matched.value, reads]
      exact ⟨_, atomicStep_takes may (by simp [Cell.takes, value]),
        matched.move matched.value rfl (by simp [Pc.loaded]) (.inl rfl), elsewhere _⟩
  | @store here next value may =>
      cases done
      cases place
      have alone' := alone.resolve_left
        (by simp [Label.code, atomicStoreSeqCst, Instruction.stored])
      exact ⟨_, atomicStep_takes may rfl,
        matched.move (by simp) rfl (by simp [Pc.loaded]) (.inr alone'), elsewhere _⟩
  | @exchangeLoad here next word new may =>
      obtain ⟨reads, rfl⟩ := guarded_eq_some.mp done
      cases place
      have value : cell.value = word.value := by rw [← matched.value, reads]
      have waits : Prepared client t (cell.control t) (.exchanging word.value new next) := may
      have still := matched.move matched.value waits (by simp [Pc.loaded, value]) (.inl rfl)
      rw [Function.update_eq_self] at still
      exact ⟨cell, .start, still, fun _ _ => rfl⟩
  | @exchangeStore old new next =>
      cases done
      have value : cell.value = old := matched.fresh t old (by simp [stands, Pc.loaded])
      have alone' := alone.resolve_left (by simp [Label.code, Instruction.stored])
      have takes : cell.takes (.exchange old new) = some { cell with value := new } := by
        simp [Cell.takes, value]
      exact ⟨_, atomicStep_takes place takes,
        matched.move (by simp) rfl (by simp [Pc.loaded]) (.inr alone'), elsewhere _⟩

theorem Matches.moves {after : Shared Thread Unit (Word Value) (Pc Control Value)}
    {cell : Cell Thread Control Value} {moves : List (Label Value)}
    (matched : Matches client shared cell) (alone : Alone shared t)
    (ran : Reaches (sharedStep (program client)) unrestricted shared
      (moves.map fun label => (t, label)) after) :
    ∃ cell', Reaches (atomicStep client) unrestricted cell
        ((moves.filterMap Label.completes).map fun operation => (t, operation)) cell' ∧
      Matches client after cell' ∧ Alone after t ∧
      (∀ u, u ≠ t → cell'.control u = cell.control u) := by
  induction moves using List.reverseRecOn generalizing after with
  | nil =>
      cases ran.runs
      exact ⟨cell, .start, matched, alone, fun _ _ => rfl⟩
  | append_singleton moves label ih =>
      rw [List.map_append] at ran
      obtain ⟨before, earlier, -, taken⟩ := reaches_snoc.mp ran
      obtain ⟨cell', first, still, alone', others⟩ := ih earlier
      obtain ⟨cell'', last, matched', others'⟩ := still.step (.inr alone') taken
      refine ⟨cell'', ?_, matched', fun u other => ?_, fun u other => ?_⟩
      · rw [filterMap_snoc, List.map_append]
        exact first.append last
      · rw [sharedStep_others taken other]
        exact alone' u other
      · rw [others' u other, others u other]

end Shared

section Runs
variable [DecidableEq Value] {client : Thread → Control → Operation Value → Option Control}
  {t : Thread} {s after : StoreBuffer.State Thread Unit (Word Value) (Pc Control Value)}
  {shared : Shared Thread Unit (Word Value) (Pc Control Value)}
  {waiting : Thread → List (Label Value)} {cell : Cell Thread Control Value}

theorem between_of_loaded (lags : Lags (program client) s shared waiting)
    (loaded : (shared.control t).loaded ≠ none) : between s t = true := by
  have behind := lags.behind t
  unfold between
  generalize shared.control t = pc at behind loaded
  generalize s.buffer t = entries at behind
  generalize waiting t = labels at behind
  cases behind with
  | done =>
      cases stands : s.control t with
      | idle here => simp [stands, Pc.loaded] at loaded
      | exchanging old new next => rfl
  | store goes code rest =>
      cases goes_move goes with
      | store may => exact absurd rfl loaded
      | exchangeStore =>
          cases code
          rfl
      | load may => exact absurd rfl loaded
      | exchangeLoad may => exact absurd rfl loaded

/-- At one moment of a run: the shared memory behind the buffers, and the cell that
has performed what took effect there. -/
structure Tracks (client : Thread → Control → Operation Value → Option Control)
    (s : StoreBuffer.State Thread Unit (Word Value) (Pc Control Value))
    (shared : Shared Thread Unit (Word Value) (Pc Control Value))
    (waiting : Thread → List (Label Value)) (cell : Cell Thread Control Value) : Prop where
  lags : Lags (program client) s shared waiting
  matched : Matches client shared cell
  single : ∀ t u, (shared.control t).loaded ≠ none → (shared.control u).loaded ≠ none → t = u

theorem Tracks.ready (tracks : Tracks client s shared waiting cell) (threads : List Thread) :
    ∃ sorted : List Thread, (∀ t ∈ threads, t ∈ sorted) ∧
      ∀ t, waiting t = [] ∨ (shared.control t).loaded = none ∨
        sorted.head? = some t ∧ (shared.control t).loaded = some cell.value := by
  by_cases someone : ∃ t, (shared.control t).loaded ≠ none
  · obtain ⟨first, loaded⟩ := someone
    refine ⟨first :: threads, fun t => List.mem_cons_of_mem first, fun t => ?_⟩
    cases value : (shared.control t).loaded with
    | none => exact Or.inr (Or.inl rfl)
    | some old =>
        have same : first = t := tracks.single first t loaded (by simp [value])
        exact Or.inr (Or.inr ⟨by simp [same], by rw [tracks.matched.fresh t old value]⟩)
  · simp only [not_exists, not_not] at someone
    exact ⟨threads, fun _ => id, fun t => Or.inr (Or.inl (someone t))⟩

variable [DecidableEq Thread]

theorem Tracks.step {act : Act (Label Value) Unit (Word Value)}
    (tracks : Tracks client s shared waiting cell) (undisturbed : Undisturbed s (t, act))
    (taken : step (program client) s (t, act) = some after) :
    ∃ moves later shared' cell',
      Follows (program client) after shared waiting t act moves later shared' ∧
      Tracks client after shared' (Function.update waiting t later) cell' ∧
      Reaches (atomicStep client) unrestricted cell
        ((moves.filterMap Label.completes).map fun operation => (t, operation)) cell' := by
  -- With one cell no load can overtake a store to another.
  have ordered : NoOvertaking (program client) s (t, act) := by
    cases act with
    | flush cell word => trivial
    | executes label =>
        cases label <;>
          simp [NoOvertaking, program, Label.code, atomicLoadSeqCst, atomicStoreSeqCst]
  obtain ⟨moves, later, shared', follows, executed⟩ := tracks.lags.step ordered taken
  by_cases alone : Alone shared t
  · obtain ⟨cell', ran, matched, alone', -⟩ := tracks.matched.moves alone follows.ran
    exact ⟨moves, later, shared', cell', follows,
      ⟨follows.lags, matched, single_of_alone alone'⟩, ran⟩
  · -- Somebody else's Exchange is under way, so this is no flush and no Exchange's load.
    obtain ⟨u, other, loaded⟩ : ∃ u, u ≠ t ∧ (shared.control u).loaded ≠ none := by
      simpa [Alone] using alone
    have between := between_of_loaded tracks.lags loaded
    cases act with
    | flush target word => simp [undisturbed u other] at between
    | executes label =>
        rcases executed label rfl with rfl | ⟨rfl, empty, plain⟩
        · cases follows.ran.runs
          exact ⟨[], later, shared, cell, follows, ⟨follows.lags, tracks.matched, tracks.single⟩,
            .start⟩
        · obtain ⟨before, unmoved, -, moved⟩ := reaches_snoc.mp
            (show Reaches _ _ _ ([] ++ [(t, label)]) _ from follows.ran)
          cases unmoved.runs
          obtain ⟨cell', ran, matched, -⟩ := tracks.matched.step (.inl plain) moved
          have quiet : (shared'.control t).loaded = none := by
            obtain ⟨next, middle, goes, -, rfl⟩ := sharedStep_eq_some.mp moved
            have idle := (goes_move goes).idle
              (by rintro word new rfl; simp [undisturbed empty u other] at between)
            simpa using idle
          refine ⟨[label], later, shared', cell', follows, ⟨follows.lags, matched, ?_⟩, ?_⟩
          · -- The thread that moved has loaded nothing, the others are where they were.
            have kept : ∀ v, (shared'.control v).loaded ≠ none →
                (shared.control v).loaded ≠ none := by
              intro v loaded
              by_cases self : v = t
              · exact absurd (self ▸ quiet) loaded
              · rwa [sharedStep_others moved self] at loaded
            exact fun v w first second => tracks.single v w (kept v first) (kept w second)
          · cases completed : label.completes <;> simpa [completed] using ran

/-- Along a run the cell has performed what the threads have completed, apart from
what waits in the store buffers. -/
theorem tracks_reaches {memory : Value} {control : Thread → Control}
    {trace : List (Thread × Act (Label Value) Unit (Word Value))}
    (reached : Reaches (step (program client)) Undisturbed
      (init (fun _ => { value := memory, exchanged := false })
        fun t => .idle (control t)) trace s) :
    ∃ order shared waiting cell,
      Reaches (atomicStep client) unrestricted { value := memory, control } order cell ∧
      Tracks client s shared waiting cell ∧
      (∀ t, (trace.filterMap (performed t)).filterMap Label.completes =
        order.filterMap (ofThread t) ++ (waiting t).filterMap Label.completes) ∧
      ∀ t, t ∉ trace.map Prod.fst → waiting t = [] := by
  induction reached with
  | start =>
      refine ⟨[], { memory := _, control := _ }, fun _ => [], _, .start,
        ⟨⟨rfl, fun _ => .done⟩, ⟨rfl, fun _ => rfl, ?_⟩, ?_⟩, fun _ => rfl, fun _ _ => rfl⟩
      · intro t old loaded
        cases loaded
      · intro t u loaded
        exact absurd rfl loaded
  | next label _ undisturbed taken ih =>
      obtain ⟨order, shared, waiting, cell, ran, tracks, accounts, absent⟩ := ih
      obtain ⟨t, act⟩ := label
      obtain ⟨moves, later, shared', cell', follows, tracks', more⟩ := tracks.step undisturbed taken
      refine ⟨_, shared', _, cell', ran.append more, tracks', fun u => ?_, fun u away => ?_⟩
      · have kept := congrArg (List.filterMap Label.completes) (follows.accounts u)
        rw [List.filterMap_append, List.filterMap_append, completes_moves] at kept
        rw [filterMap_snoc, List.filterMap_append, accounts u, List.append_assoc, kept,
          List.filterMap_append, List.append_assoc]
      · simp only [List.map_append, List.mem_append, not_or] at away
        have other : u ≠ t := by simpa using away.2
        rw [Function.update_of_ne other]
        exact absent u away.1

theorem catches_up {pc final : Pc Control Value} {entries : List (Unit × Word Value)}
    {labels : List (Label Value)} (behind : Behind (program client) t none pc entries labels final)
    (place : Prepared client t (cell.control t) pc)
    (fresh : ∀ old, pc.loaded = some old → cell.value = old) :
    ∃ cell', Reaches (atomicStep client) unrestricted cell
        ((labels.filterMap Label.completes).map fun operation => (t, operation)) cell' ∧
      (∀ u, u ≠ t → cell'.control u = cell.control u) ∧
      Prepared client t (cell'.control t) final := by
  -- On a shared memory on which the others are between their operations.
  let lone : Shared Thread Unit (Word Value) (Pc Control Value) :=
    { memory := fun _ => { value := cell.value, exchanged := false }
      control := Function.update (fun u => .idle (cell.control u)) t pc }
  have matched : Matches client lone cell := by
    refine ⟨rfl, fun u => ?_, fun u old loaded => ?_⟩
    · by_cases self : u = t
      · subst self
        simpa [lone] using place
      · simp [lone, self, Prepared]
    · by_cases self : u = t
      · subst self
        exact fresh old (by simpa [lone] using loaded)
      · simp [lone, self, Pc.loaded] at loaded
  have alone : Alone lone t := fun u other => by simp [lone, other, Pc.loaded]
  have stands : lone.control t = pc := by simp [lone]
  obtain ⟨after, ran, -, there⟩ := behind.performs (fun _ _ none => by cases none) stands
  obtain ⟨cell', performed, matched', -, others⟩ := matched.moves alone ran
  exact ⟨cell', performed, others, there ▸ matched'.place t⟩

theorem catch_up_all (threads : List Thread) {pcs final : Thread → Pc Control Value}
    {entries : Thread → List (Unit × Word Value)}
    (behind : ∀ t, Behind (program client) t none (pcs t) (entries t) (waiting t) (final t))
    (place : ∀ t, Prepared client t (cell.control t) (pcs t))
    (ready : ∀ t, waiting t = [] ∨ (pcs t).loaded = none ∨
      threads.head? = some t ∧ (pcs t).loaded = some cell.value) :
    ∃ order cell', Reaches (atomicStep client) unrestricted cell order cell' ∧
      ∀ t, (waiting t = [] ∨ t ∈ threads) →
        order.filterMap (ofThread t) = (waiting t).filterMap Label.completes ∧
          Prepared client t (cell'.control t) (final t) := by
  induction threads generalizing cell pcs entries waiting with
  | nil =>
      refine ⟨[], cell, .start, fun t nothing => ?_⟩
      have own := behind t
      rw [nothing.resolve_right List.not_mem_nil] at own ⊢
      exact ⟨rfl, own.caught_up ▸ place t⟩
  | cons first threads ih =>
      have later : ∀ t, t ≠ first → waiting t = [] ∨ (pcs t).loaded = none := by
        intro t other
        rcases ready t with nothing | idle | ⟨head, -⟩
        · exact Or.inl nothing
        · exact Or.inr idle
        · exact absurd (Option.some.inj head).symm other
      have own : waiting first ≠ [] → ∀ old, (pcs first).loaded = some old → cell.value = old := by
        intro some' old loaded
        rcases ready first with nothing | idle | ⟨-, value⟩
        · exact absurd nothing some'
        · rw [idle] at loaded
          cases loaded
        · exact Option.some.inj (value.symm.trans loaded)
      by_cases nothing : waiting first = []
      · obtain ⟨order, cell', ran, done⟩ := ih behind place fun t => by
          by_cases self : t = first
          · exact Or.inl (self ▸ nothing)
          · exact (later t self).imp_right Or.inl
        refine ⟨order, cell', ran, fun t listed => done t ?_⟩
        by_cases self : t = first
        · exact Or.inl (self ▸ nothing)
        · simpa [self] using listed
      · obtain ⟨middle, ran, others, there⟩ :=
          catches_up (behind first) (place first) (own nothing)
        have behind' : ∀ t, Behind (program client) t none
            (Function.update pcs first (final first) t) (Function.update entries first [] t)
            (Function.update waiting first [] t) (final t) :=
          Behind.done_first behind first
        have place' : ∀ t, Prepared client t (middle.control t)
            (Function.update pcs first (final first) t) := by
          intro t
          by_cases self : t = first
          · subst self
            simpa using there
          · simpa [self, others t self] using place t
        obtain ⟨order, cell', more, done⟩ := ih behind' place' fun t => by
          by_cases self : t = first
          · simp [self]
          · simpa [self] using (later t self).imp_right Or.inl
        refine ⟨_, cell', ran.append more, fun t listed => ?_⟩
        rw [List.filterMap_append]
        by_cases self : t = first
        · subst self
          obtain ⟨rest, stands⟩ := done t (Or.inl (by simp))
          rw [rest, ofThread_self]
          simpa using stands
        · rw [ofThread_other (Ne.symm self)]
          simpa [self] using done t (by simpa [self] using listed)

theorem ordered_of_undisturbed {memory : Value} {control : Thread → Control}
    {trace : List (Thread × Act (Label Value) Unit (Word Value))}
    (reached : Reaches (step (program client)) Undisturbed
      (init (fun _ => { value := memory, exchanged := false })
        fun t => .idle (control t)) trace s) :
    Ordered client memory control trace s := by
  obtain ⟨order, shared, waiting, cell, ran, tracks, accounts, absent⟩ := tracks_reaches reached
  obtain ⟨sorted, covers, ready⟩ := tracks.ready (trace.map Prod.fst)
  obtain ⟨rest, cell', more, done⟩ :=
    catch_up_all sorted tracks.lags.behind tracks.matched.place ready
  have everyone : ∀ t, waiting t = [] ∨ t ∈ sorted := by
    intro t
    by_cases present : t ∈ trace.map Prod.fst
    · exact Or.inr (covers t present)
    · exact Or.inl (absent t present)
  refine ⟨_, cell', ran.append more, fun t => ?_, fun t here stands => ?_⟩
  · rw [accounts t, List.filterMap_append, (done t (everyone t)).1]
  · have place := (done t (everyone t)).2
    rw [stands] at place
    exact place

end Runs

/-- `SpinLock` of tests/stress/spinlock.cpp; the loop of Lock stands where the thread
stands outside. -/
inductive Spin where
  | outside
  | critical
  deriving DecidableEq

def spin (Thread : Type) : Thread → Spin → Operation Int64 → Option Spin
  | _, .outside, .exchange old new => guarded (new = 1) (if old = 1 then .outside else .critical)
  | _, .critical, .store value => guarded (value = 0) .outside
  | _, _, _ => none

section SpinLock
variable [DecidableEq Thread]

structure Exclusive (cell : Cell Thread Spin Int64) : Prop where
  held : ∀ t, cell.control t = .critical → cell.value = 1
  single : ∀ t u, cell.control t = .critical → cell.control u = .critical → t = u

theorem exclusive_step (cell after : Cell Thread Spin Int64) (label : Thread × Operation Int64)
    (exclusive : Exclusive cell) (taken : atomicStep (spin Thread) cell label = some after) :
    Exclusive after := by
  obtain ⟨t, operation⟩ := label
  simp only [atomicStep, Option.bind_eq_some_iff, Option.map_eq_some_iff] at taken
  obtain ⟨next, goes, middle, done, rfl⟩ := taken
  cases stands : cell.control t with
  | outside =>
      cases operation with
      | load value => simp [spin, stands] at goes
      | store value => simp [spin, stands] at goes
      | exchange old new =>
          rw [stands] at goes
          obtain ⟨rfl, rfl⟩ := guarded_eq_some.mp goes
          obtain ⟨rfl, rfl⟩ := guarded_eq_some.mp done
          by_cases busy : cell.value = 1
          · -- A failed attempt writes 1 over 1.
            constructor
            · intro u inside
              rfl
            · intro u v first second
              have away : ∀ w, Function.update cell.control t .outside w = .critical →
                  cell.control w = .critical := by
                intro w inside
                by_cases self : w = t
                · simp [self] at inside
                · simpa [self] using inside
              simp only [busy, if_true] at first second
              exact exclusive.single u v (away u first) (away v second)
          · -- Nobody is inside where the cell is not 1.
            have nobody : ∀ u, cell.control u ≠ .critical := fun u inside =>
              busy (exclusive.held u inside)
            constructor
            · intro u inside
              rfl
            · intro u v first second
              have mine : ∀ w, Function.update cell.control t .critical w = .critical → w = t := by
                intro w inside
                by_contra other
                rw [Function.update_of_ne other] at inside
                exact nobody w inside
              simp only [busy, if_false] at first second
              rw [mine u first, mine v second]
  | critical =>
      cases operation with
      | load value => simp [spin, stands] at goes
      | exchange old new => simp [spin, stands] at goes
      | store value =>
          rw [stands] at goes
          obtain ⟨rfl, rfl⟩ := guarded_eq_some.mp goes
          cases done
          -- The only owner leaves.
          have nobody : ∀ u, Function.update cell.control t .outside u ≠ .critical := by
            intro u inside
            by_cases self : u = t
            · simp [self] at inside
            · rw [Function.update_of_ne self] at inside
              exact self (exclusive.single u t inside stands)
          exact ⟨fun u inside => absurd inside (nobody u), fun u v first => absurd first (nobody u)⟩

theorem exclusive_reachable {order : List (Thread × Operation Int64)}
    {cell : Cell Thread Spin Int64}
    (ran : Reaches (atomicStep (spin Thread)) unrestricted
      { value := 0, control := fun _ => .outside } order cell) : Exclusive cell :=
  ran.invariant ⟨fun _ inside => (by cases inside), fun _ _ inside => (by cases inside)⟩
    fun cell label after exclusive _ taken => exclusive_step cell after label exclusive taken

/-- Exchange is atomic in the runs in which no Exchange is disturbed: the operations
have one total order in which each returns what the cell then holds and an
Exchange replaces it. There the spin lock admits one thread at a time. -/
theorem exchange_atomic_undisturbed {Control Value : Type} [DecidableEq Value]
    (client : Thread → Control → Operation Value → Option Control) (memory : Value)
    (control : Thread → Control) :
    (∀ trace s, Reaches (step (program client)) Undisturbed
      (init (fun _ => { value := memory, exchanged := false }) fun t => .idle (control t)) trace s →
        Ordered client memory control trace s) ∧
    ∀ trace s, Reaches (step (program (spin Thread))) Undisturbed
      (init (fun _ => { value := 0, exchanged := false }) fun _ => .idle .outside) trace s →
        ∀ t u, s.control t = .idle .critical → s.control u = .idle .critical → t = u := by
  constructor
  · intro trace s reached
    exact ordered_of_undisturbed reached
  · intro trace s reached t u first second
    obtain ⟨order, cell, ran, -, places⟩ := ordered_of_undisturbed reached
    exact (exclusive_reachable ran).single t u (places t _ first) (places u _ second)

/-- Thread 0 takes and releases the lock, its last store still in its buffer; thread 1
tries in between. -/
theorem exchange_undisturbed_run : ∃ trace s,
    run (restricted (step (program (spin Bool))) Undisturbed)
      (init (fun _ => { value := 0, exchanged := false }) fun _ => .idle .outside) trace =
        some s ∧
    s.control true = .idle .outside ∧ Ordered (spin Bool) 0 (fun _ => .outside) trace s ∧
    ∀ t u, s.control t = .idle .critical → s.control u = .idle .critical → t = u := by
  have ran : run (restricted (step (program (spin Bool))) Undisturbed)
      (init (fun _ => { value := 0, exchanged := false }) fun _ => .idle .outside)
      [(false, .executes (.exchangeLoad { value := 0, exchanged := false } 1)),
        (false, .executes (.exchangeStore 0 1)),
        (false, .flush () { value := 1, exchanged := true }),
        (true, .executes (.exchangeLoad { value := 1, exchanged := true } 1)),
        (false, .executes (.store 0)), (true, .executes (.exchangeStore 1 1))] = some _ := rfl
  have atomic := exchange_atomic_undisturbed (spin Bool) 0 fun _ => .outside
  exact ⟨_, _, ran, rfl, atomic.1 _ _ (run_reaches ran), atomic.2 _ _ (run_reaches ran)⟩

end SpinLock

/-- Two threads load 0, then both store 1, each store reaching memory at once: both
Exchanges return 0 and both threads are in the critical section. No order of the
operations has that. -/
theorem exchange_lost : ∃ trace s,
    Reaches (step (program (spin Bool))) unrestricted
      (init (fun _ => { value := 0, exchanged := false }) fun _ => .idle .outside) trace s ∧
    (∀ t, s.control t = .idle .critical) ∧ (∀ t, s.buffer t = []) ∧
    ¬ Ordered (spin Bool) 0 (fun _ => .outside) trace s := by
  have ran : run (step (program (spin Bool)))
      (init (fun _ => { value := 0, exchanged := false }) fun _ => .idle .outside)
      [(false, .executes (.exchangeLoad { value := 0, exchanged := false } 1)),
        (true, .executes (.exchangeLoad { value := 0, exchanged := false } 1)),
        (false, .executes (.exchangeStore 0 1)),
        (false, .flush () { value := 1, exchanged := true }),
        (true, .executes (.exchangeStore 0 1)),
        (true, .flush () { value := 1, exchanged := true })] = some _ := rfl
  refine ⟨_, _, run_free ran, ?_, ?_, ?_⟩
  · intro t
    cases t <;> rfl
  · intro t
    cases t <;> rfl
  · rintro ⟨order, cell, reached, -, places⟩
    have both := (exclusive_reachable reached).single false true (places false _ rfl)
      (places true _ rfl)
    cases both

end ConcurrencyCourse.Exchange
