import ConcurrencyCourse.Interleaving

/-!
The echo server of tasks/asio/echo/echo/server.cpp: any number of clients, one Session an
accepted socket, and an event loop that runs the handlers of completed operations one at a
time in any order. Reads and writes are done by the event loop in between: a read takes the
next received bytes into the buffer of its session, a write takes its bytes from the buffer
a part at a time.
-/

namespace ConcurrencyCourse.Echo

open Interleaving

def kBufferSize : ℕ := 1024

structure Buffer where
  bytes : List UInt8
  size : bytes.length = kBufferSize

/-- `asio::buffer(buffer_, bytes)`: as many bytes at the front as were asked for and are
there. -/
def Buffer.front (buffer : Buffer) (bytes : ℕ) : List UInt8 := buffer.bytes.take bytes

def Buffer.fill (buffer : Buffer) (bytes : List UInt8) : Buffer where
  bytes := bytes.take kBufferSize ++ buffer.bytes.drop bytes.length
  size := by
    have whole := buffer.size
    simp only [List.length_append, List.length_take, List.length_drop]
    omega

theorem front_fill {buffer : Buffer} {bytes : List UInt8} (fits : bytes.length ≤ kBufferSize) :
    (buffer.fill bytes).front bytes.length = bytes := by
  simp only [Buffer.front, Buffer.fill, List.take_of_length_le fits, List.take_left]

inductive Error where
  | eof
  | failure
  deriving DecidableEq

/-- A pending `async_read_some` of at most `size` bytes, or `async_write` of `size` bytes
with `sent` of them behind it. -/
inductive Operation where
  | read (size : ℕ)
  | write (size sent : ℕ)
  deriving DecidableEq

inductive Completion where
  | read (bytes : ℕ)
  | readFailed (error : Error)
  | written (size : ℕ)
  | writeFailed (size sent : ℕ) (error : Error)
  deriving DecidableEq

/-- The Session lives as long as an operation or a handler has `self`. -/
structure Session (Client : Type) where
  socket : Client
  buffer : Buffer
  pending : List Operation
  ready : List Completion

inductive Status where
  | absent
  | connecting
  | accepted
  | ended (last : Completion)
  deriving DecidableEq

/-- One client: what it has sent, whether it has closed its sending side, how much of it
the server has read, and what has come back. -/
structure Connection where
  status : Status
  sent : List UInt8
  closed : Bool
  read : List UInt8
  echoed : List UInt8

structure State (Client Id : Type) where
  connection : Client → Connection
  session : Id → Option (Session Client)
  accepting : ℕ
  accepted : List (Option Client)

inductive Label (Client Id : Type) where
  | connect (client : Client)
  | send (client : Client) (bytes : List UInt8)
  | close (client : Client)
  | accept (client : Client)
  | acceptFails
  | receive (id : Id) (size : ℕ) (bytes : List UInt8)
  | receiveFails (id : Id) (size : ℕ) (error : Error)
  | transmit (id : Id) (size sent count : ℕ)
  | transmitted (id : Id) (size : ℕ)
  | transmitFails (id : Id) (size sent : ℕ) (error : Error)
  | handle (id : Id) (completion : Completion)
  | handleAccept (client : Option Client) (id : Id) (memory : Buffer)

variable {Client Id : Type}

def init : State Client Id where
  connection _ := { status := .absent, sent := [], closed := false, read := [], echoed := [] }
  session _ := none
  accepting := 1
  accepted := []

def Session.ReadChunk (session : Session Client) : Session Client :=
  { session with pending := .read kBufferSize :: session.pending }

def Session.WriteChunk (session : Session Client) (bytes : ℕ) : Session Client :=
  { session with pending := .write (session.buffer.front bytes).length 0 :: session.pending }

def Session.handler (session : Session Client) : Completion → Session Client
  | .read bytes => session.WriteChunk bytes
  | .readFailed _ => session
  | .written _ => session.ReadChunk
  | .writeFailed _ _ _ => session

def Session.complete (session : Session Client) (operation : Operation)
    (completion : Completion) : Session Client :=
  { session with
    pending := session.pending.erase operation
    ready := completion :: session.ready }

def Session.Released (session : Session Client) : Prop :=
  session.pending = [] ∧ session.ready = []

instance (session : Session Client) : Decidable session.Released :=
  inferInstanceAs (Decidable (_ ∧ _))

section Machine
variable [DecidableEq Client] [DecidableEq Id]

def withConnection (s : State Client Id) (client : Client) (connection : Connection) :
    State Client Id :=
  { s with connection := Function.update s.connection client connection }

def withSession (s : State Client Id) (id : Id) (session : Session Client) : State Client Id :=
  { s with session := Function.update s.session id (some session) }

/-- The last `self` is gone: the Session closes its socket. -/
def ended (s : State Client Id) (id : Id) (client : Client) (last : Completion) :
    State Client Id :=
  { s with
    session := Function.update s.session id none
    connection := Function.update s.connection client
      { s.connection client with status := .ended last } }

def AcceptClient (s : State Client Id) : State Client Id :=
  { s with accepting := s.accepting + 1 }

def step (s : State Client Id) : Label Client Id → Option (State Client Id)
  | .connect client =>
      guarded ((s.connection client).status = .absent)
        (withConnection s client { s.connection client with status := .connecting })
  | .send client bytes =>
      guarded ((s.connection client).status ≠ .absent ∧ (s.connection client).closed = false)
        (withConnection s client
          { s.connection client with sent := (s.connection client).sent ++ bytes })
  | .close client =>
      guarded ((s.connection client).status ≠ .absent)
        (withConnection s client { s.connection client with closed := true })
  | .accept client =>
      guarded (0 < s.accepting ∧ (s.connection client).status = .connecting)
        { withConnection s client { s.connection client with status := .accepted } with
          accepting := s.accepting - 1
          accepted := some client :: s.accepted }
  | .acceptFails =>
      guarded (0 < s.accepting)
        { s with
          accepting := s.accepting - 1
          accepted := none :: s.accepted }
  | .receive id size bytes => (s.session id).bind fun session =>
      let connection := s.connection session.socket
      -- Between 1 byte and the size of the buffer, and always the next bytes.
      guarded (.read size ∈ session.pending ∧ 1 ≤ bytes.length ∧ bytes.length ≤ size ∧
          connection.read ++ bytes <+: connection.sent)
        (withConnection
          (withSession s id
            { session.complete (.read size) (.read bytes.length) with
              buffer := session.buffer.fill bytes })
          session.socket { connection with read := connection.read ++ bytes })
  | .receiveFails id size error => (s.session id).bind fun session =>
      let connection := s.connection session.socket
      -- The end of the stream comes after its bytes.
      guarded (.read size ∈ session.pending ∧
          (error = .eof → connection.closed = true ∧ connection.read = connection.sent))
        (withSession s id (session.complete (.read size) (.readFailed error)))
  | .transmit id size sent count => (s.session id).bind fun session =>
      let connection := s.connection session.socket
      guarded (.write size sent ∈ session.pending ∧ 1 ≤ count ∧ sent + count ≤ size)
        (withConnection
          (withSession s id
            { session with
              pending := .write size (sent + count) :: session.pending.erase (.write size sent) })
          session.socket
          { connection with
            echoed := connection.echoed ++ ((session.buffer.front size).drop sent).take count })
  | .transmitted id size => (s.session id).bind fun session =>
      guarded (.write size size ∈ session.pending)
        (withSession s id (session.complete (.write size size) (.written size)))
  | .transmitFails id size sent error => (s.session id).bind fun session =>
      guarded (.write size sent ∈ session.pending)
        (withSession s id (session.complete (.write size sent) (.writeFailed size sent error)))
  | .handle id completion => (s.session id).bind fun session =>
      let next := { session with ready := session.ready.erase completion }.handler completion
      guarded (completion ∈ session.ready)
        (if next.Released then ended s id session.socket completion else withSession s id next)
  | .handleAccept client id memory =>
      let next := { s with accepted := s.accepted.erase client }
      guarded (client ∈ s.accepted ∧ s.session id = none)
        (AcceptClient (match client with
          | some socket => withSession next id
              ({ socket := socket, buffer := memory, pending := [], ready := [] } :
                Session Client).ReadChunk
          | none => next))

end Machine

def Session.unsent (session : Session Client) : List UInt8 :=
  match session.pending, session.ready with
  | [.write size sent], [] => (session.buffer.front size).drop sent
  | [], [.read bytes] => session.buffer.front bytes
  | [], [.writeFailed size sent _] => (session.buffer.front size).drop sent
  | _, _ => []

/-- Where a session stands in its loop. It has one operation pending or one handler ready,
and what is not written yet is at the front of its buffer. -/
inductive Stage (session : Session Client) (connection : Connection) : Prop where
  | reading (pending : session.pending = [.read kBufferSize]) (ready : session.ready = [])
      (even : connection.echoed = connection.read)
  | received (bytes : ℕ) (some' : 1 ≤ bytes) (fits : bytes ≤ kBufferSize)
      (pending : session.pending = []) (ready : session.ready = [.read bytes])
      (behind : connection.echoed ++ session.buffer.front bytes = connection.read)
  | unread (error : Error) (pending : session.pending = [])
      (ready : session.ready = [.readFailed error])
      (even : connection.echoed = connection.read)
      (last : error = .eof → connection.closed = true ∧ connection.read = connection.sent)
  | writing (size sent : ℕ) (part : sent ≤ size) (fits : size ≤ kBufferSize)
      (pending : session.pending = [.write size sent]) (ready : session.ready = [])
      (behind : connection.echoed ++ (session.buffer.front size).drop sent = connection.read)
  | written (size : ℕ) (pending : session.pending = []) (ready : session.ready = [.written size])
      (even : connection.echoed = connection.read)
  | unwritten (size sent : ℕ) (error : Error) (pending : session.pending = [])
      (ready : session.ready = [.writeFailed size sent error])
      (behind : connection.echoed ++ (session.buffer.front size).drop sent = connection.read)

structure Sound (connection : Connection) : Prop where
  received : connection.read <+: connection.sent
  returned : connection.echoed <+: connection.read
  unserved : connection.status = .absent ∨ connection.status = .connecting → connection.read = []
  complete : connection.status = .ended (.readFailed .eof) →
    connection.closed = true ∧ connection.read = connection.sent ∧
      connection.echoed = connection.read

structure Inv (s : State Client Id) : Prop where
  sound : ∀ client, Sound (s.connection client)
  stage : ∀ id session, s.session id = some session →
    (s.connection session.socket).status = .accepted ∧ Stage session (s.connection session.socket)
  single : ∀ id id' session session', s.session id = some session → s.session id' = some session' →
    session.socket = session'.socket → id = id'
  waiting : ∀ client, some client ∈ s.accepted → (s.connection client).status = .accepted ∧
    (s.connection client).read = [] ∧
    ∀ id session, s.session id = some session → session.socket ≠ client
  acceptor : s.accepting + s.accepted.length = 1

theorem init_inv : Inv (init : State Client Id) := by
  constructor
  · intro client
    exact ⟨List.nil_prefix, List.nil_prefix, fun _ => rfl, nofun⟩
  · exact nofun
  · exact nofun
  · exact nofun
  · rfl

section Stages
variable {session : Session Client} {connection after : Connection}

theorem Stage.of_read (stage : Stage session connection) {size : ℕ}
    (pending : .read size ∈ session.pending) : size = kBufferSize ∧
      session.pending = [.read kBufferSize] ∧ session.ready = [] ∧
      connection.echoed = connection.read := by
  cases stage <;> simp_all

theorem Stage.of_write (stage : Stage session connection) {size sent : ℕ}
    (pending : .write size sent ∈ session.pending) :
    sent ≤ size ∧ size ≤ kBufferSize ∧ session.pending = [.write size sent] ∧
      session.ready = [] ∧
      connection.echoed ++ (session.buffer.front size).drop sent = connection.read := by
  cases stage <;> simp_all

theorem Stage.of_ready (stage : Stage session connection) {completion : Completion}
    (ready : completion ∈ session.ready) :
    session.pending = [] ∧ session.ready = [completion] := by
  cases stage <;> simp_all

theorem Stage.unsent (stage : Stage session connection) :
    connection.echoed ++ session.unsent = connection.read := by
  cases stage <;> simp_all [Session.unsent]

theorem Stage.one (stage : Stage session connection) :
    session.pending.length + session.ready.length = 1 := by
  cases stage <;> simp_all

theorem Stage.mono (stage : Stage session connection) (read : after.read = connection.read)
    (echoed : after.echoed = connection.echoed)
    (final : connection.closed = true → after.closed = true ∧ after.sent = connection.sent) :
    Stage session after := by
  cases stage with
  | reading pending ready even => exact .reading pending ready (by rw [read, echoed, even])
  | received bytes some' fits pending ready behind =>
      exact .received bytes some' fits pending ready (by rw [read, echoed, behind])
  | unread error pending ready even last =>
      refine .unread error pending ready (by rw [read, echoed, even]) fun eof => ?_
      rcases last eof with ⟨closed, whole⟩
      rw [(final closed).2, read]
      exact ⟨(final closed).1, whole⟩
  | writing size sent part fits pending ready behind =>
      exact .writing size sent part fits pending ready (by rw [read, echoed, behind])
  | written size pending ready even =>
      exact .written size pending ready (by rw [read, echoed, even])
  | unwritten size sent error pending ready behind =>
      exact .unwritten size sent error pending ready (by rw [read, echoed, behind])

end Stages

theorem Inv.of_acceptor {s : State Client Id} (inv : Inv s) {accepting : ℕ}
    {accepted : List (Option Client)}
    (nobody : ∀ client, some client ∉ accepted) (one : accepting + accepted.length = 1) :
    Inv { s with accepting := accepting, accepted := accepted } := by
  constructor
  · exact inv.sound
  · exact inv.stage
  · exact inv.single
  · exact fun client member => absurd member (nobody client)
  · exact one

section Steps
variable [DecidableEq Client] {s : State Client Id} {client : Client} {id : Id}
  {session : Session Client}

theorem Inv.of_client (inv : Inv s) (next : Connection) (sound : Sound next)
    (served : (s.connection client).status = .accepted → next.status = .accepted ∧
      next.read = (s.connection client).read ∧ next.echoed = (s.connection client).echoed ∧
      ((s.connection client).closed = true → next.closed = true ∧
        next.sent = (s.connection client).sent)) : Inv (withConnection s client next) := by
  constructor
  · intro other
    by_cases same : other = client
    · simpa [withConnection, same] using sound
    · simpa [withConnection, same] using inv.sound other
  · intro id session here
    rcases inv.stage id session here with ⟨status, stage⟩
    by_cases same : session.socket = client
    · rw [same] at status stage
      rcases served status with ⟨still, read, echoed, final⟩
      simp only [withConnection, same, Function.update_self]
      exact ⟨still, stage.mono read echoed final⟩
    · simp only [withConnection, Function.update_of_ne same]
      exact ⟨status, stage⟩
  · exact inv.single
  · intro other member
    rcases inv.waiting other member with ⟨status, unread, nobody⟩
    by_cases same : other = client
    · rw [same] at status unread
      rcases served status with ⟨still, read, _⟩
      simp only [withConnection, same, Function.update_self]
      exact ⟨still, read.trans unread, same ▸ nobody⟩
    · simp only [withConnection, Function.update_of_ne same]
      exact ⟨status, unread, nobody⟩
  · exact inv.acceptor

theorem Inv.of_accept (inv : Inv s) (some' : 0 < s.accepting)
    (status : (s.connection client).status = .connecting) :
    Inv { withConnection s client { s.connection client with status := .accepted } with
      accepting := s.accepting - 1
      accepted := some client :: s.accepted } := by
  have nothing : s.accepted = [] := by
    have one := inv.acceptor
    exact List.length_eq_zero_iff.mp (by omega)
  have unread := (inv.sound client).unserved (.inr status)
  have apart : ∀ id session, s.session id = some session → session.socket ≠ client := by
    rintro id session here rfl
    have accepted := (inv.stage id session here).1
    rw [status] at accepted
    cases accepted
  constructor
  · intro other
    by_cases same : other = client
    · have before := inv.sound client
      simp only [withConnection, same, Function.update_self]
      exact ⟨before.received, before.returned, by simp, by simp⟩
    · simpa [withConnection, same] using inv.sound other
  · intro id session here
    simp only [withConnection, Function.update_of_ne (apart id session here)]
    exact inv.stage id session here
  · exact inv.single
  · intro other member
    have same : other = client := by simpa [nothing] using member
    simp only [withConnection, same, Function.update_self]
    exact ⟨trivial, unread, apart⟩
  · have one := inv.acceptor
    simp only [List.length_cons]
    omega

variable [DecidableEq Id]

theorem Inv.of_session (inv : Inv s) (here : s.session id = some session) (next : Session Client)
    (socket : next.socket = session.socket) (connection : Connection)
    (status : connection.status = .accepted) (sound : Sound connection)
    (stage : Stage next connection) :
    Inv (withConnection (withSession s id next) session.socket connection) := by
  have owner : ∀ id' session', (withSession s id next).session id' = some session' →
      id' = id ∧ session' = next ∨
        s.session id' = some session' ∧ session'.socket ≠ session.socket := by
    intro id' session' there
    by_cases same : id' = id
    · subst same
      simp only [withSession, Function.update_self, Option.some.injEq] at there
      exact .inl ⟨rfl, there.symm⟩
    · simp only [withSession, Function.update_of_ne same] at there
      exact .inr ⟨there, fun shared => same (inv.single id' id session' session there here shared)⟩
  constructor
  · intro other
    by_cases same : other = session.socket
    · simpa [withConnection, same] using sound
    · simpa [withConnection, withSession, same] using inv.sound other
  · intro id' session' there
    rcases owner id' session' there with ⟨_, rfl⟩ | ⟨old, apart⟩
    · simp only [withConnection, socket, Function.update_self]
      exact ⟨status, stage⟩
    · simp only [withConnection, Function.update_of_ne apart]
      exact inv.stage id' session' old
  · intro id' id'' session' session'' first second shared
    rcases owner id' session' first with ⟨rfl, rfl⟩ | ⟨old, apart⟩ <;>
      rcases owner id'' session'' second with ⟨rfl, rfl⟩ | ⟨old', apart'⟩
    · rfl
    · exact absurd (shared.symm.trans socket) apart'
    · exact absurd (shared.trans socket) apart
    · exact inv.single id' id'' session' session'' old old' shared
  · intro other member
    rcases inv.waiting other member with ⟨accepted, unread, nobody⟩
    have apart : other ≠ session.socket := fun same => nobody id session here same.symm
    simp only [withConnection, Function.update_of_ne apart]
    refine ⟨accepted, unread, fun id' session' there => ?_⟩
    rcases owner id' session' there with ⟨_, rfl⟩ | ⟨old, _⟩
    · rw [socket]
      exact nobody id session here
    · exact nobody id' session' old
  · exact inv.acceptor

theorem Inv.same_session (inv : Inv s) (here : s.session id = some session)
    (next : Session Client) (socket : next.socket = session.socket)
    (stage : Stage next (s.connection session.socket)) : Inv (withSession s id next) := by
  have still : withConnection (withSession s id next) session.socket
      (s.connection session.socket) = withSession s id next := by
    simp [withConnection, withSession]
  rw [← still]
  exact inv.of_session here next socket _ (inv.stage id session here).1
    (inv.sound session.socket) stage

theorem Inv.of_ended (inv : Inv s) (here : s.session id = some session) (last : Completion)
    (final : last = .readFailed .eof → (s.connection session.socket).closed = true ∧
      (s.connection session.socket).read = (s.connection session.socket).sent ∧
      (s.connection session.socket).echoed = (s.connection session.socket).read) :
    Inv (ended s id session.socket last) := by
  have others : ∀ id' session', (ended s id session.socket last).session id' = some session' →
      s.session id' = some session' ∧ session'.socket ≠ session.socket := by
    intro id' session' there
    by_cases same : id' = id
    · simp [ended, same] at there
    · simp only [ended, Function.update_of_ne same] at there
      exact ⟨there, fun shared => same (inv.single id' id session' session there here shared)⟩
  constructor
  · intro other
    by_cases same : other = session.socket
    · have before := inv.sound session.socket
      simp only [ended, same, Function.update_self]
      refine ⟨before.received, before.returned, by simp, fun status => final ?_⟩
      simpa using status
    · simpa [ended, same] using inv.sound other
  · intro id' session' there
    rcases others id' session' there with ⟨old, apart⟩
    simp only [ended, Function.update_of_ne apart]
    exact inv.stage id' session' old
  · intro id' id'' session' session'' first second shared
    exact inv.single id' id'' session' session'' (others id' session' first).1
      (others id'' session'' second).1 shared
  · intro other member
    rcases inv.waiting other member with ⟨accepted, unread, nobody⟩
    have apart : other ≠ session.socket := fun same => nobody id session here same.symm
    simp only [ended, Function.update_of_ne apart]
    exact ⟨accepted, unread, fun id' session' there =>
      nobody id' session' (others id' session' there).1⟩
  · exact inv.acceptor

theorem Inv.of_create (inv : Inv s) (waiting : some client ∈ s.accepted)
    (memory : Buffer) (fresh : s.session id = none) :
    Inv (AcceptClient (withSession { s with accepted := s.accepted.erase (some client) } id
      ({ socket := client, buffer := memory, pending := [], ready := [] } :
        Session Client).ReadChunk)) := by
  rcases inv.waiting client waiting with ⟨accepted, unread, nobody⟩
  have none' : s.accepted.erase (some client) = [] ∧ s.accepting = 0 := by
    have one := inv.acceptor
    have shorter := List.length_erase_of_mem waiting
    have some' := List.length_pos_of_mem waiting
    exact ⟨List.length_eq_zero_iff.mp (by omega), by omega⟩
  have even : (s.connection client).echoed = (s.connection client).read := by
    have returned := (inv.sound client).returned
    rw [unread, List.prefix_nil] at returned
    rw [unread, returned]
  have owner : ∀ made id' session', (withSession s id made).session id' = some session' →
      id' = id ∧ session' = made ∨ s.session id' = some session' := by
    intro made id' session' there
    by_cases same : id' = id
    · subst same
      simp only [withSession, Function.update_self, Option.some.injEq] at there
      exact .inl ⟨rfl, there.symm⟩
    · simp only [withSession, Function.update_of_ne same] at there
      exact .inr there
  constructor
  · exact inv.sound
  · intro id' session' there
    rcases owner _ id' session' there with ⟨_, rfl⟩ | old
    · exact ⟨accepted, .reading rfl rfl even⟩
    · exact inv.stage id' session' old
  · intro id' id'' session' session'' first second shared
    rcases owner _ id' session' first with ⟨rfl, rfl⟩ | old <;>
      rcases owner _ id'' session'' second with ⟨rfl, rfl⟩ | old'
    · rfl
    · exact absurd shared.symm (nobody id'' session'' old')
    · exact absurd shared (nobody id' session' old)
    · exact inv.single id' id'' session' session'' old old' shared
  · intro other member
    simp [AcceptClient, withSession, none'] at member
  · simp [AcceptClient, withSession, none']

theorem Inv.of_handler (inv : Inv s) (here : s.session id = some session)
    {completion : Completion} (waiting : completion ∈ session.ready) :
    let next := { session with ready := session.ready.erase completion }.handler completion
    Inv (if next.Released then ended s id session.socket completion
      else withSession s id next) := by
  intro next
  subst next
  have stage := (inv.stage id session here).2
  rcases stage.of_ready waiting with ⟨pending, ready⟩
  have released : ∀ next : Session Client, next.pending ≠ [] → ¬ next.Released :=
    fun next busy none' => busy none'.1
  cases stage with
  | received bytes some' fits _ ready' behind =>
      cases ready.symm.trans ready'
      rw [if_neg (released _ (by simp [Session.handler, Session.WriteChunk]))]
      apply inv.same_session here
      · rfl
      · have long : (session.buffer.front bytes).length = bytes := by
          rw [Buffer.front, List.length_take, session.buffer.size]
          exact Nat.min_eq_left fits
        apply Stage.writing bytes 0 (Nat.zero_le _) fits
        · simp [Session.handler, Session.WriteChunk, pending, long]
        · simp [Session.handler, Session.WriteChunk, ready]
        · exact behind
  | unread error _ ready' even last =>
      cases ready.symm.trans ready'
      rw [if_pos ⟨pending, by simp [Session.handler, ready]⟩]
      apply inv.of_ended here
      rintro ⟨⟩
      exact ⟨(last rfl).1, (last rfl).2, even⟩
  | written size _ ready' even =>
      cases ready.symm.trans ready'
      rw [if_neg (released _ (by simp [Session.handler, Session.ReadChunk]))]
      apply inv.same_session here
      · rfl
      · apply Stage.reading
        · simp [Session.handler, Session.ReadChunk, pending]
        · simp [Session.handler, Session.ReadChunk, ready]
        · exact even
  | unwritten size sent error _ ready' behind =>
      cases ready.symm.trans ready'
      rw [if_pos ⟨pending, by simp [Session.handler, ready]⟩]
      exact inv.of_ended here _ nofun
  | reading pending' _ _ =>
      rw [pending] at pending'
      cases pending'
  | writing _ _ _ _ pending' _ _ =>
      rw [pending] at pending'
      cases pending'

variable {after : State Client Id}

theorem Inv.connect (inv : Inv s)
    (taken : step s (.connect client) = some after) : Inv after := by
  rcases guarded_eq_some.mp taken with ⟨status, rfl⟩
  have before := inv.sound client
  apply inv.of_client
  · exact ⟨before.received, before.returned, fun _ => before.unserved (.inl status), by simp⟩
  · intro accepted
    rw [status] at accepted
    cases accepted

theorem Inv.send (inv : Inv s) {bytes : List UInt8}
    (taken : step s (.send client bytes) = some after) : Inv after := by
  rcases guarded_eq_some.mp taken with ⟨⟨status, going⟩, rfl⟩
  have before := inv.sound client
  apply inv.of_client
  · refine ⟨before.received.trans (List.prefix_append _ _), before.returned,
      before.unserved, ?_⟩
    intro gone
    exact absurd (before.complete gone).1 (by simp [going])
  · exact fun accepted => ⟨accepted, rfl, rfl, fun closed => absurd closed (by simp [going])⟩

theorem Inv.close (inv : Inv s)
    (taken : step s (.close client) = some after) : Inv after := by
  rcases guarded_eq_some.mp taken with ⟨status, rfl⟩
  have before := inv.sound client
  apply inv.of_client
  · refine ⟨before.received, before.returned, before.unserved, ?_⟩
    exact fun gone => ⟨rfl, (before.complete gone).2⟩
  · exact fun accepted => ⟨accepted, rfl, rfl, fun _ => ⟨rfl, rfl⟩⟩

theorem Inv.acceptFails (inv : Inv s)
    (taken : step s .acceptFails = some after) : Inv after := by
  rcases guarded_eq_some.mp taken with ⟨some', rfl⟩
  have one := inv.acceptor
  have nothing : s.accepted = [] := List.length_eq_zero_iff.mp (by omega)
  apply inv.of_acceptor
  · simp [nothing]
  · simp only [List.length_cons]
    omega

theorem Inv.receive (inv : Inv s) {size : ℕ} {bytes : List UInt8}
    (taken : step s (.receive id size bytes) = some after) : Inv after := by
  rcases Option.bind_eq_some_iff.mp taken with ⟨session, here, taken⟩
  rcases guarded_eq_some.mp taken with ⟨⟨pending, some', fits, next⟩, rfl⟩
  rcases inv.stage id session here with ⟨status, stage⟩
  rcases stage.of_read pending with ⟨rfl, only, ready, even⟩
  have before := inv.sound session.socket
  apply inv.of_session here
  · rfl
  · exact status
  · refine ⟨next, before.returned.trans (List.prefix_append _ _), ?_, ?_⟩ <;> simp [status]
  · apply Stage.received bytes.length some' fits
    · simp [Session.complete, only]
    · simp [Session.complete, ready]
    · simp only [even, front_fill fits]

theorem Inv.receiveFails (inv : Inv s) {size : ℕ} {error : Error}
    (taken : step s (.receiveFails id size error) = some after) : Inv after := by
  rcases Option.bind_eq_some_iff.mp taken with ⟨session, here, taken⟩
  rcases guarded_eq_some.mp taken with ⟨⟨pending, last⟩, rfl⟩
  rcases (inv.stage id session here).2.of_read pending with ⟨rfl, only, ready, even⟩
  apply inv.same_session here
  · rfl
  · apply Stage.unread error _ _ even last
    · simp [Session.complete, only]
    · simp [Session.complete, ready]

theorem Inv.transmit (inv : Inv s) {size sent count : ℕ}
    (taken : step s (.transmit id size sent count) = some after) : Inv after := by
  rcases Option.bind_eq_some_iff.mp taken with ⟨session, here, taken⟩
  rcases guarded_eq_some.mp taken with ⟨⟨pending, _, within⟩, rfl⟩
  rcases inv.stage id session here with ⟨status, stage⟩
  rcases stage.of_write pending with ⟨part, fits, only, ready, behind⟩
  have before := inv.sound session.socket
  have split : (s.connection session.socket).echoed ++
      ((session.buffer.front size).drop sent).take count ++
      (session.buffer.front size).drop (sent + count) =
        (s.connection session.socket).read := by
    rw [← behind, List.append_assoc, ← List.drop_drop, List.take_append_drop]
  apply inv.of_session here
  · rfl
  · exact status
  · refine ⟨before.received, ⟨_, split⟩, ?_, ?_⟩ <;> simp [status]
  · apply Stage.writing size (sent + count) within fits
    · simp [only]
    · exact ready
    · exact split

theorem Inv.transmitted (inv : Inv s) {size : ℕ}
    (taken : step s (.transmitted id size) = some after) : Inv after := by
  rcases Option.bind_eq_some_iff.mp taken with ⟨session, here, taken⟩
  rcases guarded_eq_some.mp taken with ⟨pending, rfl⟩
  rcases (inv.stage id session here).2.of_write pending with ⟨_, _, only, ready, behind⟩
  apply inv.same_session here
  · rfl
  · apply Stage.written size
    · simp [Session.complete, only]
    · simp [Session.complete, ready]
    · have all : (session.buffer.front size).drop size = [] := by simp [Buffer.front]
      rwa [all, List.append_nil] at behind

theorem Inv.transmitFails (inv : Inv s) {size sent : ℕ} {error : Error}
    (taken : step s (.transmitFails id size sent error) = some after) : Inv after := by
  rcases Option.bind_eq_some_iff.mp taken with ⟨session, here, taken⟩
  rcases guarded_eq_some.mp taken with ⟨pending, rfl⟩
  rcases (inv.stage id session here).2.of_write pending with ⟨_, _, only, ready, behind⟩
  apply inv.same_session here
  · rfl
  · apply Stage.unwritten size sent error
    · simp [Session.complete, only]
    · simp [Session.complete, ready]
    · exact behind

theorem Inv.handleAccept (inv : Inv s) {client : Option Client} {memory : Buffer}
    (taken : step s (.handleAccept client id memory) = some after) : Inv after := by
  rcases guarded_eq_some.mp taken with ⟨⟨waiting, fresh⟩, rfl⟩
  cases client with
  | some client => exact inv.of_create waiting memory fresh
  | none =>
      have one := inv.acceptor
      have shorter := List.length_erase_of_mem waiting
      have some' := List.length_pos_of_mem waiting
      have nothing : s.accepted.erase none = [] := List.length_eq_zero_iff.mp (by omega)
      apply inv.of_acceptor
      · simp [nothing]
      · simp only [nothing, List.length_nil]
        omega

theorem step_inv (inv : Inv s) {label : Label Client Id}
    (taken : step s label = some after) : Inv after := by
  cases label with
  | connect client => exact inv.connect taken
  | send client bytes => exact inv.send taken
  | close client => exact inv.close taken
  | accept client =>
      rcases guarded_eq_some.mp taken with ⟨⟨some', status⟩, rfl⟩
      exact inv.of_accept some' status
  | acceptFails => exact inv.acceptFails taken
  | receive id size bytes => exact inv.receive taken
  | receiveFails id size error => exact inv.receiveFails taken
  | transmit id size sent count => exact inv.transmit taken
  | transmitted id size => exact inv.transmitted taken
  | transmitFails id size sent error => exact inv.transmitFails taken
  | handle id completion =>
      rcases Option.bind_eq_some_iff.mp taken with ⟨session, here, taken⟩
      rcases guarded_eq_some.mp taken with ⟨waiting, rfl⟩
      exact inv.of_handler here waiting
  | handleAccept client id memory => exact inv.handleAccept taken

end Steps

section Runs
variable [DecidableEq Client] [DecidableEq Id] {s : State Client Id}
  {trace : List (Label Client Id)}

theorem reaches_inv (reached : Reaches step unrestricted init trace s) : Inv s :=
  reached.invariant init_inv fun _ _ _ inv _ taken => step_inv inv taken

/-- The server returns exactly what it got. What a session has written, followed by what is
left of its chunk, is what it has read; it never has a second operation pending, let alone
a read into the buffer that a write is taken from; what a client gets back is a prefix of
what it sent itself; and when a session ends with its client's stream it is all of that. -/
theorem echo_exact (reached : Reaches step unrestricted init trace s) :
    (∀ id session, s.session id = some session →
      (s.connection session.socket).echoed ++ session.unsent =
        (s.connection session.socket).read ∧
      (∀ size size' sent, .read size ∈ session.pending → .write size' sent ∉ session.pending) ∧
      session.pending.length + session.ready.length = 1) ∧
    (∀ client, (s.connection client).echoed <+: (s.connection client).read ∧
      (s.connection client).read <+: (s.connection client).sent) ∧
    ∀ client, (s.connection client).status = .ended (.readFailed .eof) →
      (s.connection client).closed = true ∧
      (s.connection client).read = (s.connection client).sent ∧
      (s.connection client).echoed = (s.connection client).sent := by
  have inv := reaches_inv reached
  refine ⟨?_, ?_, ?_⟩
  · intro id session here
    have stage := (inv.stage id session here).2
    refine ⟨stage.unsent, ?_, stage.one⟩
    intro size size' sent reads writes
    have only := (stage.of_read reads).2.1
    simp [only] at writes
  · intro client
    exact ⟨(inv.sound client).returned, (inv.sound client).received⟩
  · intro client gone
    rcases (inv.sound client).complete gone with ⟨closed, whole, even⟩
    exact ⟨closed, whole, even.trans whole⟩

/-- Two clients. The first sends 1, 2 and 3, which is read in two parts, the first of them
written back in two parts with the other session in between. -/
theorem echo_exact_two_clients :
    ∃ (trace : List (Label Bool Bool)) (s : State Bool Bool),
      run step init trace = some s ∧
      (s.connection true).status = .ended (.readFailed .eof) ∧
      (s.connection true).sent = [1, 2, 3] ∧ (s.connection true).echoed = [1, 2, 3] ∧
      (s.connection false).echoed <+: (s.connection false).read := by
  have ran : run step (init : State Bool Bool)
      [.connect true, .send true [1, 2, 3], .close true, .accept true,
        .handleAccept (some true) true ⟨List.replicate 1024 0, List.length_replicate⟩,
        .connect false, .accept false,
        .handleAccept (some false) false ⟨List.replicate 1024 7, List.length_replicate⟩,
        .receive true 1024 [1, 2], .handle true (.read 2), .transmit true 2 0 1,
        .send false [9], .receive false 1024 [9], .transmit true 2 1 1, .transmitted true 2,
        .handle false (.read 1), .handle true (.written 2), .receive true 1024 [3],
        .handle true (.read 1), .transmit true 1 0 1, .transmitted true 1,
        .handle true (.written 1), .receiveFails true 1024 .eof,
        .handle true (.readFailed .eof)] = some _ := rfl
  rcases echo_exact (run_free ran) with ⟨_, returned, complete⟩
  exact ⟨_, _, ran, rfl, rfl, (complete true rfl).2.2, (returned false).1⟩

end Runs

end ConcurrencyCourse.Echo
