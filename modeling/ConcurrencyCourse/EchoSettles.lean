import ConcurrencyCourse.Echo
import ConcurrencyCourse.Headcount
import Mathlib.Algebra.BigOperators.Group.List.Basic
import Mathlib.Data.Fintype.EquivFin

/-!
What an echo server comes to when its clients do nothing more. Each byte costs the event
loop a bounded number of completions and handlers, however they are ordered, and where
nothing is left to be done every client has everything back that it sent, unless one of the
operations of its session failed.
-/

namespace ConcurrencyCourse.Echo

open Interleaving Headcount

variable {Client Id : Type}

def Completion.failed : Completion → Bool
  | .readFailed _ | .writeFailed _ _ _ => true
  | _ => false

/-- What is left to the clients and to the network: everything else the event loop does by
itself. -/
def Label.goesOn : Label Client Id → Bool
  | .connect _ | .send _ _ | .close _ | .acceptFails => false
  | .receiveFails _ _ .failure | .transmitFails _ _ _ _ => false
  | _ => true

section Settled
variable [DecidableEq Client] [DecidableEq Id] {s after : State Client Id} {client : Client}
  {id : Id} {session : Session Client}

def Idle (s : State Client Id) : Prop :=
  ∀ label : Label Client Id, label.goesOn = true → step s label = none

/-- An accepted client waits for its Session or has one, a Session ends on an operation that
failed, and finitely many of them are there. -/
structure Kept (s : State Client Id) (used : Finset Id) : Prop where
  served : ∀ client, (s.connection client).status = .accepted →
    some client ∈ s.accepted ∨ ∃ id session, s.session id = some session ∧ session.socket = client
  failed : ∀ client last, (s.connection client).status = .ended last → last.failed = true
  finite : ∀ id, id ∉ used → s.session id = none

omit [DecidableEq Id] in
theorem Kept.of_client {used : Finset Id} (kept : Kept s used) (next : Connection)
    (status : next.status = (s.connection client).status ∨ next.status = .connecting) :
    Kept (withConnection s client next) used := by
  constructor
  · intro other accepted
    by_cases same : other = client
    · subst same
      simp only [withConnection, Function.update_self] at accepted
      rcases status with still | connecting
      · exact kept.served _ (still.symm.trans accepted)
      · cases connecting.symm.trans accepted
    · simp only [withConnection, Function.update_of_ne same] at accepted
      exact kept.served other accepted
  · intro other last ended
    by_cases same : other = client
    · subst same
      simp only [withConnection, Function.update_self] at ended
      rcases status with still | connecting
      · exact kept.failed _ _ (still.symm.trans ended)
      · cases connecting.symm.trans ended
    · simp only [withConnection, Function.update_of_ne same] at ended
      exact kept.failed other last ended
  · exact kept.finite

omit [DecidableEq Client] in
theorem Kept.of_session {used : Finset Id} (kept : Kept s used) (here : s.session id = some session)
    (next : Session Client) (socket : next.socket = session.socket) :
    Kept (withSession s id next) used := by
  constructor
  · intro client accepted
    rcases kept.served client accepted with waits | ⟨id', session', there, same⟩
    · exact .inl waits
    · by_cases own : id' = id
      · subst own
        cases here.symm.trans there
        exact .inr ⟨id', next, Function.update_self .., socket.trans same⟩
      · exact .inr ⟨id', session', (Function.update_of_ne own ..).trans there, same⟩
  · exact kept.failed
  · intro id' outside
    by_cases own : id' = id
    · subst own
      cases here.symm.trans (kept.finite id' outside)
    · exact (Function.update_of_ne own ..).trans (kept.finite id' outside)

theorem Kept.of_ended {used : Finset Id} (kept : Kept s used) (here : s.session id = some session)
    {last : Completion} (failed : last.failed = true) :
    Kept (ended s id session.socket last) used := by
  constructor
  · intro client accepted
    by_cases same : client = session.socket
    · simp [ended, same] at accepted
    · simp only [ended, Function.update_of_ne same] at accepted
      rcases kept.served client accepted with waits | ⟨id', session', there, own⟩
      · exact .inl waits
      · refine .inr ⟨id', session', (Function.update_of_ne ?_ ..).trans there, own⟩
        rintro rfl
        cases here.symm.trans there
        exact same own.symm
  · intro client last' gone
    by_cases same : client = session.socket
    · simp only [ended, same, Function.update_self, Status.ended.injEq] at gone
      exact gone ▸ failed
    · simp only [ended, Function.update_of_ne same] at gone
      exact kept.failed client last' gone
  · intro id' outside
    by_cases own : id' = id
    · simp [ended, own]
    · exact (Function.update_of_ne own ..).trans (kept.finite id' outside)

theorem Kept.of_handler {used : Finset Id} (kept : Kept s used)
    (here : s.session id = some session) (completion : Completion) :
    let next := { session with ready := session.ready.erase completion }.handler completion
    Kept (if next.Released then ended s id session.socket completion
      else withSession s id next) used := by
  intro next
  by_cases released : next.Released
  · rw [if_pos released]
    refine kept.of_ended here ?_
    cases completion with
    | readFailed error | writeFailed size sent error => rfl
    | read bytes => cases released.1
    | written size => cases released.1
  · rw [if_neg released]
    refine kept.of_session here next ?_
    cases completion <;> rfl

theorem Kept.accept {used : Finset Id} (kept : Kept s used)
    (taken : step s (.accept client) = some after) : Kept after used := by
  rcases guarded_eq_some.mp taken with ⟨_, rfl⟩
  refine ⟨fun other accepted => ?_, fun other last gone => ?_, kept.finite⟩
  · by_cases same : other = client
    · exact .inl (same ▸ List.mem_cons_self)
    · simp only [withConnection, Function.update_of_ne same] at accepted
      exact (kept.served other accepted).imp_left (List.mem_cons_of_mem _)
  · by_cases same : other = client
    · simp [withConnection, same] at gone
    · simp only [withConnection, Function.update_of_ne same] at gone
      exact kept.failed other last gone

theorem Kept.handleAccept {used : Finset Id} (kept : Kept s used) {client : Option Client}
    {memory : Buffer} (taken : step s (.handleAccept client id memory) = some after) :
    Kept after (insert id used) := by
  rcases guarded_eq_some.mp taken with ⟨⟨_, fresh⟩, rfl⟩
  -- The new Session has an id of its own, so the others are still found.
  have created (made : Session Client) (id' : Id) (session : Session Client)
      (there : s.session id' = some session) :
      Function.update s.session id (some made) id' = some session := by
    refine (Function.update_of_ne ?_ ..).trans there
    rintro rfl
    cases fresh.symm.trans there
  have elsewhere (id' : Id) (outside : id' ∉ insert id used) :
      id' ≠ id ∧ s.session id' = none := by
    rw [Finset.mem_insert, not_or] at outside
    exact ⟨outside.1, kept.finite id' outside.2⟩
  cases client with
  | none =>
      refine ⟨fun other accepted => ?_, kept.failed,
        fun id' outside => (elsewhere id' outside).2⟩
      exact (kept.served other accepted).imp_left fun waits =>
        (List.mem_erase_of_ne (by simp)).mpr waits
  | some client =>
      refine ⟨fun other accepted => ?_, kept.failed, fun id' outside => ?_⟩
      · by_cases same : other = client
        · exact .inr ⟨id, _, Function.update_self .., same.symm⟩
        · rcases kept.served other accepted with waits | ⟨id', session, there, own⟩
          · exact .inl ((List.mem_erase_of_ne (by simpa using same)).mpr waits)
          · exact .inr ⟨id', session, created _ id' session there, own⟩
      · obtain ⟨apart, none'⟩ := elsewhere id' outside
        exact (Function.update_of_ne apart ..).trans none'

theorem step_kept {used : Finset Id} (kept : Kept s used) {label : Label Client Id}
    (taken : step s label = some after) : ∃ used, Kept after used := by
  cases label with
  | connect client =>
      rcases guarded_eq_some.mp taken with ⟨_, rfl⟩
      exact ⟨used, kept.of_client _ (.inr rfl)⟩
  | send client bytes | close client =>
      rcases guarded_eq_some.mp taken with ⟨_, rfl⟩
      exact ⟨used, kept.of_client _ (.inl rfl)⟩
  | accept client => exact ⟨used, kept.accept taken⟩
  | acceptFails =>
      rcases guarded_eq_some.mp taken with ⟨_, rfl⟩
      exact ⟨used, fun other accepted => (kept.served other accepted).imp_left
        (List.mem_cons_of_mem _), kept.failed, kept.finite⟩
  | receive id size bytes =>
      rcases Option.bind_eq_some_iff.mp taken with ⟨session, here, taken⟩
      rcases guarded_eq_some.mp taken with ⟨_, rfl⟩
      refine ⟨used, Kept.of_client (kept.of_session here _ ?_) _ (.inl rfl)⟩
      rfl
  | transmit id size sent count =>
      rcases Option.bind_eq_some_iff.mp taken with ⟨session, here, taken⟩
      rcases guarded_eq_some.mp taken with ⟨_, rfl⟩
      refine ⟨used, Kept.of_client (kept.of_session here _ ?_) _ (.inl rfl)⟩
      rfl
  | receiveFails id size error =>
      rcases Option.bind_eq_some_iff.mp taken with ⟨session, here, taken⟩
      rcases guarded_eq_some.mp taken with ⟨_, rfl⟩
      exact ⟨used, kept.of_session here _ rfl⟩
  | transmitted id size =>
      rcases Option.bind_eq_some_iff.mp taken with ⟨session, here, taken⟩
      rcases guarded_eq_some.mp taken with ⟨_, rfl⟩
      exact ⟨used, kept.of_session here _ rfl⟩
  | transmitFails id size sent error =>
      rcases Option.bind_eq_some_iff.mp taken with ⟨session, here, taken⟩
      rcases guarded_eq_some.mp taken with ⟨_, rfl⟩
      exact ⟨used, kept.of_session here _ rfl⟩
  | handle id completion =>
      rcases Option.bind_eq_some_iff.mp taken with ⟨session, here, taken⟩
      rcases guarded_eq_some.mp taken with ⟨_, rfl⟩
      exact ⟨used, kept.of_handler here completion⟩
  | handleAccept client id memory => exact ⟨insert id used, kept.handleAccept taken⟩

theorem reaches_kept {trace : List (Label Client Id)}
    (reached : Reaches step unrestricted init trace s) : ∃ used, Kept s used := by
  induction reached with
  | start => exact ⟨∅, nofun, nofun, fun _ _ => rfl⟩
  | next label _ _ taken ih =>
      obtain ⟨used, kept⟩ := ih
      exact step_kept kept taken

theorem Idle.blocked (idle : Idle s) (label : Label Client Id) (goes : label.goesOn = true)
    (able : (step s label).isSome = true) : False := by
  rw [idle label goes] at able
  cases able

theorem Idle.reads (idle : Idle s) (inv : Inv s) (here : s.session id = some session) :
    (s.connection session.socket).closed = false ∧
      (s.connection session.socket).echoed = (s.connection session.socket).sent := by
  have handled (completion : Completion) (ready : session.ready = [completion]) : False := by
    refine idle.blocked (.handle id completion) rfl ?_
    simp only [step, here, Option.bind_some]
    exact guarded_isSome.mpr (by simp [ready])
  cases (inv.stage id session here).2 with
  | reading pending ready even =>
      have whole : (s.connection session.socket).read = (s.connection session.socket).sent := by
        obtain ⟨rest, next⟩ := (inv.sound session.socket).received
        cases rest with
        | nil => simpa using next
        | cons byte rest =>
            refine (idle.blocked (.receive id kBufferSize [byte]) rfl ?_).elim
            simp only [step, here, Option.bind_some]
            refine guarded_isSome.mpr ⟨by simp [pending], le_rfl, by simp [kBufferSize], rest, ?_⟩
            rw [List.append_assoc]
            exact next
      refine ⟨Bool.eq_false_iff.mpr fun closed => ?_, even.trans whole⟩
      refine idle.blocked (.receiveFails id kBufferSize .eof) rfl ?_
      simp only [step, here, Option.bind_some]
      exact guarded_isSome.mpr ⟨by simp [pending], fun _ => ⟨closed, whole⟩⟩
  | received bytes some' fits pending ready behind => exact (handled _ ready).elim
  | unread error pending ready even last => exact (handled _ ready).elim
  | writing size sent part fits pending ready behind =>
      rcases part.eq_or_lt with rfl | more
      · refine (idle.blocked (.transmitted id sent) rfl ?_).elim
        simp only [step, here, Option.bind_some]
        exact guarded_isSome.mpr (by simp [pending])
      · refine (idle.blocked (.transmit id size sent 1) rfl ?_).elim
        simp only [step, here, Option.bind_some]
        exact guarded_isSome.mpr ⟨by simp [pending], le_rfl, more⟩
  | written size pending ready even => exact (handled _ ready).elim
  | unwritten size sent error pending ready behind => exact (handled _ ready).elim

theorem Idle.served [Infinite Id] (idle : Idle s) (inv : Inv s) {used : Finset Id}
    (kept : Kept s used) :
    s.accepted = [] ∧ ∀ client, (s.connection client).status ≠ .connecting := by
  have nobody : s.accepted = [] := by
    cases waiting : s.accepted with
    | nil => rfl
    | cons first rest =>
        obtain ⟨id, outside⟩ := Infinite.exists_notMem_finset used
        let memory : Buffer := ⟨List.replicate kBufferSize 0, List.length_replicate⟩
        refine (idle.blocked (.handleAccept first id memory) rfl ?_).elim
        simp only [step]
        exact guarded_isSome.mpr ⟨by simp [waiting], kept.finite id outside⟩
  refine ⟨nobody, fun client connecting => ?_⟩
  have one := inv.acceptor
  rw [nobody, List.length_nil] at one
  refine idle.blocked (.accept client) rfl ?_
  simp only [step]
  exact guarded_isSome.mpr ⟨by omega, connecting⟩

theorem Idle.echoed [Infinite Id] (idle : Idle s) (inv : Inv s) {used : Finset Id}
    (kept : Kept s used) (connected : (s.connection client).status ≠ .absent) :
    (s.connection client).echoed = (s.connection client).sent ∧
        (s.connection client).status =
          (if (s.connection client).closed then .ended (.readFailed .eof) else .accepted) ∨
      ∃ last, (s.connection client).status = .ended last ∧ last.failed = true ∧
        last ≠ .readFailed .eof := by
  obtain ⟨nobody, none'⟩ := idle.served inv kept
  cases status : (s.connection client).status with
  | absent => exact absurd status connected
  | connecting => exact absurd status (none' client)
  | accepted =>
      rcases kept.served client status with waits | ⟨id, session, here, rfl⟩
      · simp [nobody] at waits
      · obtain ⟨closed, all⟩ := idle.reads inv here
        exact .inl ⟨all, by simp [closed]⟩
  | ended last =>
      by_cases eof : last = .readFailed .eof
      · subst eof
        obtain ⟨closed, whole, even⟩ := (inv.sound client).complete status
        exact .inl ⟨even.trans whole, by simp [closed]⟩
      · exact .inr ⟨last, rfl, kept.failed client last status, eof⟩

end Settled

/-! What the event loop has still to do, in steps. -/

/-- The rest of the loop of a session until it reads again, and the end of the loop. -/
def Session.due (session : Session Client) : ℕ :=
  match session.pending, session.ready with
  | [.read _], [] => 2
  | [.write size sent], [] => size - sent + 4
  | [], [.read bytes] => bytes + 5
  | [], [.written _] => 3
  | [], [.readFailed _] | [], [.writeFailed _ _ _] => 1
  | _, _ => 0

/-- What each label brings in: a client pays for its connection, and for every byte five steps
beside the sending. -/
def fee : Label Client Id → ℕ
  | .connect _ => 5
  | .send _ bytes => 1 + 5 * bytes.length
  | .close _ => 1
  | .acceptFails => 2
  | _ => 0

/-- The amount is enough for everything that is left to be done for the client. -/
structure Covers (s : State Client Id) (client : Client) (amount : ℕ) : Prop where
  absent : (s.connection client).status = .absent → 5 * (s.connection client).sent.length ≤ amount
  connecting : (s.connection client).status = .connecting →
    5 * (s.connection client).sent.length + 4 ≤ amount
  waiting : some client ∈ s.accepted → 5 * (s.connection client).sent.length + 3 ≤ amount
  serving : ∀ id session, s.session id = some session → session.socket = client →
    session.due + 5 * ((s.connection client).sent.length - (s.connection client).read.length) ≤
      amount

section Budget
variable {s after : State Client Id} {client : Client} {id : Id} {session : Session Client}
  {amount : ℕ}

structure Untouched (s after : State Client Id) (client : Client) : Prop where
  connection : after.connection client = s.connection client
  waiting : some client ∈ after.accepted → some client ∈ s.accepted
  serving : ∀ id session, after.session id = some session → session.socket = client →
    s.session id = some session

theorem Covers.elsewhere (covers : Covers s client amount) (same : Untouched s after client) :
    Covers after client amount := by
  have connection := same.connection
  constructor <;> rw [connection]
  · exact covers.absent
  · exact covers.connecting
  · exact fun waits => covers.waiting (same.waiting waits)
  · intro id session here own
    exact covers.serving id session (same.serving id session here own) own

theorem covers_connecting (inv : Inv s) (status : (s.connection client).status = .connecting)
    (enough : 5 * (s.connection client).sent.length + 4 ≤ amount) : Covers s client amount := by
  constructor
  · intro absent
    cases status.symm.trans absent
  · exact fun _ => enough
  · intro waits
    cases status.symm.trans (inv.waiting client waits).1
  · rintro id session here rfl
    cases status.symm.trans (inv.stage id session here).1

theorem covers_waiting (inv : Inv s) (waits : some client ∈ s.accepted)
    (enough : 5 * (s.connection client).sent.length + 3 ≤ amount) : Covers s client amount := by
  obtain ⟨status, _, nobody⟩ := inv.waiting client waits
  constructor
  · intro absent
    cases status.symm.trans absent
  · intro connecting
    cases status.symm.trans connecting
  · exact fun _ => enough
  · exact fun id session here own => absurd own (nobody id session here)

theorem covers_serving (inv : Inv s) (here : s.session id = some session)
    (enough : session.due + 5 * ((s.connection session.socket).sent.length -
      (s.connection session.socket).read.length) ≤ amount) : Covers s session.socket amount := by
  have status := (inv.stage id session here).1
  constructor
  · intro absent
    cases status.symm.trans absent
  · intro connecting
    cases status.symm.trans connecting
  · intro waits
    exact absurd rfl ((inv.waiting _ waits).2.2 id session here)
  · intro id' session' there own
    obtain rfl := inv.single id' id session' session there here own
    cases here.symm.trans there
    exact enough

theorem covers_ended (inv : Inv s) {last : Completion}
    (status : (s.connection client).status = .ended last) : Covers s client amount := by
  constructor
  · intro absent
    cases status.symm.trans absent
  · intro connecting
    cases status.symm.trans connecting
  · intro waits
    cases status.symm.trans (inv.waiting client waits).1
  · rintro id session here rfl
    cases status.symm.trans (inv.stage id session here).1

variable [DecidableEq Client]

theorem Covers.more (covers : Covers s client amount) (next : Connection) (extra : ℕ)
    (status : next.status = (s.connection client).status)
    (sent : next.sent.length = (s.connection client).sent.length + extra)
    (read : next.read = (s.connection client).read) :
    Covers (withConnection s client next) client (amount + 5 * extra) := by
  have now : (withConnection s client next).connection client = next := Function.update_self ..
  constructor <;> rw [now]
  · intro absent
    have enough := covers.absent (status.symm.trans absent)
    omega
  · intro connecting
    have enough := covers.connecting (status.symm.trans connecting)
    omega
  · intro waits
    have enough := covers.waiting waits
    omega
  · intro id session here own
    have enough := covers.serving id session here own
    rw [read]
    omega

theorem untouched_client {other : Client} (apart : other ≠ client) (next : Connection) :
    Untouched s (withConnection s client next) other :=
  ⟨Function.update_of_ne apart .., fun waits => waits, fun _ _ here _ => here⟩

omit [DecidableEq Client] in
theorem Untouched.trans {middle : State Client Id} (first : Untouched s middle client)
    (second : Untouched middle after client) : Untouched s after client :=
  ⟨second.connection.trans first.connection, fun waits => first.waiting (second.waiting waits),
    fun id session here own => first.serving id session (second.serving id session here own) own⟩

variable [DecidableEq Id]

omit [DecidableEq Client] in
theorem untouched_session {other : Client} {next : Session Client} (apart : other ≠ next.socket) :
    Untouched s (withSession s id next) other := by
  refine ⟨rfl, fun waits => waits, fun id' session here own => ?_⟩
  by_cases same : id' = id
  · subst same
    simp only [withSession, Function.update_self, Option.some.injEq] at here
    exact absurd (here ▸ own).symm apart
  · exact (Function.update_of_ne same ..).symm.trans here

theorem untouched_ended {other : Client} (apart : other ≠ client) (last : Completion) :
    Untouched s (ended s id client last) other := by
  refine ⟨Function.update_of_ne apart .., fun waits => waits, fun id' session here _ => ?_⟩
  by_cases same : id' = id
  · simp [ended, same] at here
  · exact (Function.update_of_ne same ..).symm.trans here

variable [Fintype Client] {left : Client → ℕ} {label : Label Client Id}

def Funded (s : State Client Id) (total : ℕ) : Prop :=
  ∃ left : Client → ℕ, (∀ client, Covers s client (left client)) ∧
    ∑ client, left client + s.accepted.count none = total

/-- A step leaves enough set aside: it costs one, and brings its fee. -/
def Pays (left : Client → ℕ) (s : State Client Id) (label : Label Client Id)
    (after : State Client Id) : Prop :=
  ∃ total, Funded after total ∧
    total + 1 ≤ ∑ client, left client + s.accepted.count none + fee label

omit [DecidableEq Id] in
theorem one_pays (covers : ∀ client, Covers s client (left client))
    (own : Covers after client amount) (others : ∀ other, other ≠ client → Untouched s after other)
    (same : after.accepted.count none = s.accepted.count none)
    (spent : amount + 1 ≤ left client + fee label) :
    Pays left s label after := by
  refine ⟨_, ⟨Function.update left client amount, fun other => ?_, rfl⟩, ?_⟩
  · by_cases mine : other = client
    · subst mine
      simpa using own
    · simpa [mine] using (covers other).elsewhere (others other mine)
  -- Only the summand of this client changes.
  · have elsewhere (other : Client) (apart : other ≠ client) :
        Function.update left client amount other ≤ left other :=
      (Function.update_of_ne apart ..).le
    have moved := sum_moved_le elsewhere
    rw [Function.update_self] at moved
    omega

omit [DecidableEq Id] in
theorem session_pays (covers : ∀ client, Covers s client (left client)) (inv : Inv after)
    (here : s.session id = some session) {next : Session Client}
    (there : after.session id = some next) (socket : next.socket = session.socket)
    (others : ∀ other, other ≠ next.socket → Untouched s after other)
    (same : after.accepted = s.accepted)
    (less : next.due + 5 * ((after.connection session.socket).sent.length -
        (after.connection session.socket).read.length) + 1 ≤
      session.due + 5 * ((s.connection session.socket).sent.length -
        (s.connection session.socket).read.length)) :
    Pays left s label after := by
  have enough := (covers session.socket).serving id session here rfl
  rw [← socket] at less enough
  refine one_pays covers (covers_serving inv there le_rfl) others (by rw [same]) ?_
  omega

theorem stage_pays (covers : ∀ client, Covers s client (left client))
    {next : Session Client} (inv : Inv (withSession s id next))
    (here : s.session id = some session) (socket : next.socket = session.socket)
    (less : next.due + 1 ≤ session.due) :
    Pays left s label (withSession s id next) := by
  refine session_pays covers inv here (Function.update_self ..) socket
    (fun other apart => untouched_session apart) rfl ?_
  simp only [withSession]
  omega

omit [DecidableEq Client] [DecidableEq Id] [Fintype Client] in
theorem handler_due {completion : Completion} (pending : session.pending = [])
    (ready : session.ready = [completion])
    (goes : ¬ ({ session with ready := session.ready.erase completion }.handler
      completion).Released) :
    ({ session with ready := session.ready.erase completion }.handler completion).due + 1 ≤
      session.due := by
  cases completion with
  -- A read of n bytes was worth what writing them costs.
  | read bytes =>
      have short : (session.buffer.front bytes).length ≤ bytes := List.length_take_le ..
      simp only [Session.handler, Session.WriteChunk, Session.due, pending, ready,
        List.erase_cons_head]
      omega
  | written size =>
      simp [Session.handler, Session.ReadChunk, Session.due, pending, ready]
  | readFailed error => exact absurd ⟨pending, by simp [Session.handler, ready]⟩ goes
  | writeFailed size sent error => exact absurd ⟨pending, by simp [Session.handler, ready]⟩ goes

theorem handler_pays (covers : ∀ client, Covers s client (left client)) (inv : Inv s)
    (here : s.session id = some session) {completion : Completion}
    (waiting : completion ∈ session.ready) :
    let next := { session with ready := session.ready.erase completion }.handler completion
    Inv (if next.Released then ended s id session.socket completion
        else withSession s id next) →
      Pays left s label (if next.Released then ended s id session.socket completion
        else withSession s id next) := by
  intro next inv'
  obtain ⟨pending, ready⟩ := (inv.stage id session here).2.of_ready waiting
  by_cases released : next.Released
  · rw [if_pos released] at inv' ⊢
    -- The Session is gone, and nothing need be set aside for its client.
    have enough := (covers session.socket).serving id session here rfl
    have one : 1 ≤ session.due := by
      cases completion <;> simp [Session.due, pending, ready]
    have status : ((ended s id session.socket completion).connection session.socket).status =
        .ended completion := by simp [ended]
    have nothing : Covers (ended s id session.socket completion) session.socket 0 :=
      covers_ended inv' status
    refine one_pays covers nothing (fun other apart => untouched_ended apart _) rfl ?_
    omega
  · rw [if_neg released] at inv' ⊢
    have socket : next.socket = session.socket := by cases completion <;> rfl
    exact stage_pays covers inv' here socket (handler_due pending ready released)

theorem connect_pays (inv' : Inv after) (covers : ∀ client, Covers s client (left client))
    (taken : step s (.connect client) = some after) : Pays left s (.connect client) after := by
  rcases guarded_eq_some.mp taken with ⟨status, rfl⟩
  have enough := (covers client).absent status
  refine one_pays covers
    (covers_connecting inv' (by simp [withConnection]) le_rfl)
    (fun other apart => untouched_client apart _) rfl ?_
  simp only [withConnection, Function.update_self, fee]
  omega

theorem send_pays {bytes : List UInt8} (covers : ∀ client, Covers s client (left client))
    (taken : step s (.send client bytes) = some after) :
    Pays left s (.send client bytes) after := by
  rcases guarded_eq_some.mp taken with ⟨_, rfl⟩
  refine one_pays covers
    ((covers client).more _ bytes.length rfl (List.length_append ..) rfl)
    (fun other apart => untouched_client apart _) rfl ?_
  simp only [fee]
  omega

theorem close_pays (covers : ∀ client, Covers s client (left client))
    (taken : step s (.close client) = some after) : Pays left s (.close client) after := by
  rcases guarded_eq_some.mp taken with ⟨_, rfl⟩
  exact one_pays covers ((covers client).more _ 0 rfl rfl rfl)
    (fun other apart => untouched_client apart _) rfl le_rfl

theorem accept_pays (inv' : Inv after) (covers : ∀ client, Covers s client (left client))
    (taken : step s (.accept client) = some after) : Pays left s (.accept client) after := by
  rcases guarded_eq_some.mp taken with ⟨⟨_, status⟩, rfl⟩
  have enough := (covers client).connecting status
  refine one_pays covers
    (covers_waiting inv' List.mem_cons_self le_rfl) (fun other apart => ?_) (by simp) ?_
  · refine ⟨Function.update_of_ne apart .., fun waits => ?_, fun _ _ here _ => here⟩
    exact (List.mem_cons.mp waits).resolve_left (by simpa using apart)
  · simp only [withConnection, Function.update_self, fee]
    omega

theorem acceptFails_pays (covers : ∀ client, Covers s client (left client))
    (taken : step s .acceptFails = some after) : Pays left s .acceptFails after := by
  rcases guarded_eq_some.mp taken with ⟨_, rfl⟩
  -- The failed accept is paid for as one more `none` in the queue.
  refine ⟨_, ⟨left, fun client => (covers client).elsewhere ⟨rfl, fun waits => ?_,
    fun _ _ here _ => here⟩, rfl⟩, ?_⟩
  · exact (List.mem_cons.mp waits).resolve_left (by simp)
  · simp only [List.count_cons_self, fee]
    omega

theorem receive_pays {size : ℕ} {bytes : List UInt8} (inv : Inv s) (inv' : Inv after)
    (covers : ∀ client, Covers s client (left client))
    (taken : step s (.receive id size bytes) = some after) :
    Pays left s (.receive id size bytes) after := by
  rcases Option.bind_eq_some_iff.mp taken with ⟨session, here, taken⟩
  rcases guarded_eq_some.mp taken with ⟨⟨pending, some', fits, next⟩, rfl⟩
  rcases (inv.stage id session here).2.of_read pending with ⟨rfl, only, ready, _⟩
  -- What is received was counted as sent and not yet read.
  have within := next.length_le
  rw [List.length_append] at within
  refine session_pays covers inv' here (Function.update_self ..) rfl
    (fun other apart => (untouched_session apart).trans (untouched_client apart _)) rfl ?_
  simp only [withConnection, Function.update_self, Session.due, Session.complete, only, ready,
    List.erase_cons_head, List.length_append]
  omega

theorem receiveFails_pays {size : ℕ} {error : Error} (inv : Inv s) (inv' : Inv after)
    (covers : ∀ client, Covers s client (left client))
    (taken : step s (.receiveFails id size error) = some after) :
    Pays left s (.receiveFails id size error) after := by
  rcases Option.bind_eq_some_iff.mp taken with ⟨session, here, taken⟩
  rcases guarded_eq_some.mp taken with ⟨⟨pending, last⟩, rfl⟩
  rcases (inv.stage id session here).2.of_read pending with ⟨rfl, only, ready, _⟩
  refine stage_pays covers inv' here rfl ?_
  simp only [Session.due, Session.complete, only, ready, List.erase_cons_head]
  omega

theorem transmit_pays {size sent count : ℕ} (inv : Inv s) (inv' : Inv after)
    (covers : ∀ client, Covers s client (left client))
    (taken : step s (.transmit id size sent count) = some after) :
    Pays left s (.transmit id size sent count) after := by
  rcases Option.bind_eq_some_iff.mp taken with ⟨session, here, taken⟩
  rcases guarded_eq_some.mp taken with ⟨⟨pending, _, within⟩, rfl⟩
  rcases (inv.stage id session here).2.of_write pending with ⟨part, fits, only, ready, _⟩
  refine session_pays covers inv' here (Function.update_self ..) rfl
    (fun other apart => (untouched_session apart).trans (untouched_client apart _)) rfl ?_
  simp only [withConnection, Function.update_self, Session.due, only, ready,
    List.erase_cons_head]
  omega

theorem transmitted_pays {size : ℕ} (inv : Inv s) (inv' : Inv after)
    (covers : ∀ client, Covers s client (left client))
    (taken : step s (.transmitted id size) = some after) :
    Pays left s (.transmitted id size) after := by
  rcases Option.bind_eq_some_iff.mp taken with ⟨session, here, taken⟩
  rcases guarded_eq_some.mp taken with ⟨pending, rfl⟩
  rcases (inv.stage id session here).2.of_write pending with ⟨part, fits, only, ready, _⟩
  refine stage_pays covers inv' here rfl ?_
  simp only [Session.due, Session.complete, only, ready, List.erase_cons_head]
  omega

theorem transmitFails_pays {size sent : ℕ} {error : Error} (inv : Inv s) (inv' : Inv after)
    (covers : ∀ client, Covers s client (left client))
    (taken : step s (.transmitFails id size sent error) = some after) :
    Pays left s (.transmitFails id size sent error) after := by
  rcases Option.bind_eq_some_iff.mp taken with ⟨session, here, taken⟩
  rcases guarded_eq_some.mp taken with ⟨pending, rfl⟩
  rcases (inv.stage id session here).2.of_write pending with ⟨part, fits, only, ready, _⟩
  refine stage_pays covers inv' here rfl ?_
  simp only [Session.due, Session.complete, only, ready, List.erase_cons_head]
  omega

theorem handleAccept_pays {client : Option Client} {memory : Buffer} (inv : Inv s)
    (inv' : Inv after) (covers : ∀ client, Covers s client (left client))
    (taken : step s (.handleAccept client id memory) = some after) :
    Pays left s (.handleAccept client id memory) after := by
  rcases guarded_eq_some.mp taken with ⟨⟨waiting, fresh⟩, rfl⟩
  cases client with
  | none =>
      refine ⟨_, ⟨left, fun client => (covers client).elsewhere ⟨rfl, List.mem_of_mem_erase,
        fun _ _ here _ => here⟩, rfl⟩, ?_⟩
      have some' := List.count_pos_iff.mpr waiting
      simp only [AcceptClient, List.count_erase_self, fee]
      omega
  | some client =>
      have enough := (covers client).waiting waiting
      have unread := (inv.waiting client waiting).2.1
      refine one_pays covers (covers_serving inv' (Function.update_self ..) le_rfl)
        (fun other apart => ?_) ?_ ?_
      · refine ⟨rfl, List.mem_of_mem_erase, fun id' session' there own => ?_⟩
        by_cases same : id' = id
        · subst same
          simp only [AcceptClient, withSession, Function.update_self,
            Option.some.injEq] at there
          exact absurd (there ▸ own).symm apart
        · exact (Function.update_of_ne same ..).symm.trans there
      · simp [AcceptClient, withSession]
      · simp only [AcceptClient, withSession, Session.ReadChunk, Session.due, unread, fee,
          List.length_nil]
        omega

theorem step_pays (inv : Inv s) (covers : ∀ client, Covers s client (left client))
    (taken : step s label = some after) : Pays left s label after := by
  have inv' := step_inv inv taken
  cases label with
  | connect client => exact connect_pays inv' covers taken
  | send client bytes => exact send_pays covers taken
  | close client => exact close_pays covers taken
  | accept client => exact accept_pays inv' covers taken
  | acceptFails => exact acceptFails_pays covers taken
  | receive id size bytes => exact receive_pays inv inv' covers taken
  | receiveFails id size error => exact receiveFails_pays inv inv' covers taken
  | transmit id size sent count => exact transmit_pays inv inv' covers taken
  | transmitted id size => exact transmitted_pays inv inv' covers taken
  | transmitFails id size sent error => exact transmitFails_pays inv inv' covers taken
  | handle id completion =>
      rcases Option.bind_eq_some_iff.mp taken with ⟨session, here, taken⟩
      rcases guarded_eq_some.mp taken with ⟨waiting, rfl⟩
      exact handler_pays covers inv here waiting inv'
  | handleAccept client id memory => exact handleAccept_pays inv inv' covers taken

theorem reaches_funded {trace : List (Label Client Id)}
    (reached : Reaches step unrestricted init trace s) :
    ∃ total, Funded s total ∧ trace.length + total ≤ (trace.map fee).sum := by
  induction reached with
  | start =>
      exact ⟨_, ⟨fun _ => 0, fun client => ⟨fun _ => le_rfl, nofun, nofun, nofun⟩, rfl⟩,
        by simp [init]⟩
  | next label run _ taken ih =>
      obtain ⟨_, ⟨left, covers, rfl⟩, bound⟩ := ih
      obtain ⟨total, funded, paid⟩ := step_pays (reaches_inv run) covers taken
      refine ⟨total, funded, ?_⟩
      simp only [List.length_append, List.length_singleton, List.map_append, List.map_cons,
        List.map_nil, List.sum_append_nat, List.sum_cons, List.sum_nil]
      omega

end Budget

section Settling
variable [DecidableEq Client] [DecidableEq Id] [Fintype Client] [Infinite Id]
  {s : State Client Id} {trace : List (Label Client Id)}

/-- However the completions and the handlers are ordered, no run has more steps than five for
a connection and for a byte, one for a send and for a close, and two for an accept that
failed. Where the event loop has nothing left to do, every client that has connected has back
what it sent, and its session has ended if and only if it closed its side, unless an
operation of the session failed. -/
theorem echo_settles (reached : Reaches step unrestricted init trace s) :
    trace.length ≤ (trace.map fee).sum ∧
    (Idle s → ∀ client, (s.connection client).status ≠ .absent →
      (s.connection client).echoed = (s.connection client).sent ∧
          (s.connection client).status =
            (if (s.connection client).closed then .ended (.readFailed .eof) else .accepted) ∨
        ∃ last, (s.connection client).status = .ended last ∧ last.failed = true ∧
          last ≠ .readFailed .eof) := by
  refine ⟨?_, fun idle client connected => ?_⟩
  -- The length is bounded by what was paid in; where it ends is read off the invariants.
  · obtain ⟨total, _, bound⟩ := reaches_funded reached
    omega
  · obtain ⟨used, kept⟩ := reaches_kept reached
    exact idle.echoed (reaches_inv reached) kept connected

omit [Fintype Client] [Infinite Id] in
theorem idle_of_reading (nobody : s.accepted = [])
    (served : ∀ client, (s.connection client).status ≠ .connecting)
    (reading : ∀ id session, s.session id = some session →
      session.pending = [.read kBufferSize] ∧ session.ready = [] ∧
      (s.connection session.socket).read = (s.connection session.socket).sent ∧
      (s.connection session.socket).closed = false) : Idle s := by
  intro label goes
  by_contra able
  obtain ⟨after, taken⟩ := Option.ne_none_iff_exists'.mp able
  cases label with
  | connect client | send client bytes | close client | acceptFails => cases goes
  | transmitFails id size sent error => cases goes
  | accept client => exact served client (guarded_eq_some.mp taken).1.2
  | handleAccept client id memory =>
      have waiting := (guarded_eq_some.mp taken).1.1
      simp [nobody] at waiting
  | receive id size bytes =>
      rcases Option.bind_eq_some_iff.mp taken with ⟨session, here, taken⟩
      rcases guarded_eq_some.mp taken with ⟨⟨_, some', _, next⟩, _⟩
      -- There is nothing to receive: everything sent has been read.
      have within := next.length_le
      rw [(reading id session here).2.2.1, List.length_append] at within
      omega
  | receiveFails id size error =>
      rcases Option.bind_eq_some_iff.mp taken with ⟨session, here, taken⟩
      rcases guarded_eq_some.mp taken with ⟨⟨_, last⟩, _⟩
      cases error with
      | eof => simp [(reading id session here).2.2.2] at last
      | failure => cases goes
  | transmit id size sent count =>
      rcases Option.bind_eq_some_iff.mp taken with ⟨session, here, taken⟩
      have pending := (guarded_eq_some.mp taken).1.1
      simp [(reading id session here).1] at pending
  | transmitted id size =>
      rcases Option.bind_eq_some_iff.mp taken with ⟨session, here, taken⟩
      have pending := (guarded_eq_some.mp taken).1
      simp [(reading id session here).1] at pending
  | handle id completion =>
      rcases Option.bind_eq_some_iff.mp taken with ⟨session, here, taken⟩
      have ready := (guarded_eq_some.mp taken).1
      simp [(reading id session here).2.1] at ready

def zeros : Buffer := ⟨List.replicate kBufferSize 0, List.length_replicate⟩

def twoClients : List (Label Bool ℕ) :=
  [.connect true, .send true [1, 2], .close true, .accept true,
    .handleAccept (some true) 0 zeros, .connect false, .receive 0 1024 [1, 2], .accept false,
    .handleAccept (some false) 1 zeros, .handle 0 (.read 2), .transmit 0 2 0 1, .send false [9],
    .receive 1 1024 [9], .transmit 0 2 1 1, .transmitted 0 2, .handle 1 (.read 1),
    .handle 0 (.written 2), .receiveFails 0 1024 .eof, .transmit 1 1 0 1,
    .handle 0 (.readFailed .eof), .transmitted 1 1, .handle 1 (.written 1)]

theorem twoClients_settled : ∃ s : State Bool ℕ, Reaches step unrestricted init twoClients s ∧
    Idle s ∧ (s.connection true).status = .ended (.readFailed .eof) ∧
    (s.connection true).sent = [1, 2] ∧ (s.connection false).status = .accepted ∧
    (s.connection false).sent = [9] := by
  have last : ∃ (s : State Bool ℕ) (session : Session Bool),
      run step init twoClients = some s ∧ s.accepted = [] ∧
      (s.connection true).status = .ended (.readFailed .eof) ∧
      (s.connection true).sent = [1, 2] ∧ (s.connection false).status = .accepted ∧
      (s.connection false).sent = [9] ∧ s.session 0 = none ∧ s.session 1 = some session ∧
      (∀ id, s.session (id + 2) = none) ∧ session.pending = [.read kBufferSize] ∧
      session.ready = [] ∧ session.socket = false ∧ (s.connection false).read = [9] ∧
      (s.connection false).closed = false := by
    have ran : run step (init : State Bool ℕ) twoClients = some _ := rfl
    exact ⟨_, _, ran, rfl, rfl, rfl, rfl, rfl, rfl, rfl, fun id => rfl, rfl, rfl, rfl, rfl, rfl⟩
  obtain ⟨s, session, ran, nobody, first, sent, second, sent', gone, here, others, pending, ready,
    socket, read, still⟩ := last
  refine ⟨s, run_free ran, ?_, first, sent, second, sent'⟩
  refine idle_of_reading nobody (fun client => ?_) fun id session' there => ?_
  · cases client with
    | false => simp [second]
    | true => simp [first]
  · obtain rfl : id = 1 := by
      rcases id with _ | _ | id
      · cases gone.symm.trans there
      · rfl
      · cases (others id).symm.trans there
    cases here.symm.trans there
    rw [socket]
    exact ⟨pending, ready, read.trans sent'.symm, still⟩

theorem echo_settles_two_clients :
    ∃ s : State Bool ℕ, run step init twoClients = some s ∧ twoClients.length ≤ 28 ∧
      (s.connection true).echoed = [1, 2] ∧ (s.connection false).echoed = [9] := by
  obtain ⟨s, reached, idle, first, sent, second, sent'⟩ := twoClients_settled
  obtain ⟨bound, settled⟩ := echo_settles reached
  have closed := (settled idle true (by simp [first])).resolve_right fun ⟨last, ended, _, other⟩ =>
    other (Status.ended.inj (first.symm.trans ended)).symm
  have stays := (settled idle false (by simp [second])).resolve_right fun ⟨last, ended, _⟩ => by
    cases second.symm.trans ended
  exact ⟨s, reached.runs, bound, closed.1.trans sent, stays.1.trans sent'⟩

end Settling

end ConcurrencyCourse.Echo
