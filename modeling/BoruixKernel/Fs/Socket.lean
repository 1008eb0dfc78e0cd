import BoruixKernel.Lib.RingBuffer
import BoruixKernel.Task.WaitQueue

/-!
# Sockets

`SockFs` and the functions that create and connect sockets, cut into sections like the
pipes.  Sockets are numbered; a call names a socket that a node has as its handle.  A
socket that was accepted on behalf of a client, but not yet handed out, has no node.

`sockfs_connect` takes the lock of the client while it holds that of the server.  If the
two are one socket it waits for itself, and the lock stays held.
-/

namespace BoruixKernel

open Function

def SockCapacity : Nat := 4096

inductive SockType where
  | Stream
  | Dgram
deriving DecidableEq, Repr

inductive SockStatus where
  | Unconnected
  | Listening
  | Connected
  | Closed
deriving DecidableEq, Repr

/-- A socket.  The lists `sent` and `received` are a record of the bytes that went into its
buffer and out of it; the source has no such record. -/
structure SockInner where
  ty : SockType
  state : SockStatus
  recv : RingBuffer UInt8 SockCapacity
  peer : Option Nat
  backlog : List Nat
  /-- The lock is held for ever, by a task that waits for it itself. -/
  held : Bool
  sent : List UInt8
  received : List UInt8

def SockInner.new (ty : SockType) : SockInner :=
  ⟨ty, .Unconnected, .new SockCapacity (by decide) 0, none, [], false, [], []⟩

/-- The wait queues: of the readers of a socket, and of those who accept from it. -/
inductive SockQueue where
  | recvWait (sock : Nat)
  | acceptWait (sock : Nat)
deriving DecidableEq, Repr

structure SockState where
  socks : Nat → SockInner
  next : Nat
  /-- The sockets that are the handle of a node. -/
  handles : List Nat
  parking : Parking SockQueue

inductive SockSection where
  | create (ty : SockType)
  | bind (sock : Nat)
  | listen (sock : Nat)
  | connect (client server : Nat)
  /-- A round of `sockfs_accept` under the lock. -/
  | accept (server : Nat)
  /-- A round of `read` under the lock, with the length of the buffer. -/
  | read (sock len : Nat)
  /-- `write`: look up the peer. -/
  | write (sock : Nat) (buf : List UInt8)
  /-- `write` under the lock of the peer. -/
  | deliver (peer : Nat) (buf : List UInt8)
  | wait (q : SockQueue)
  | wakeOne (q : SockQueue)
  /-- A task that waits for a lock it holds. -/
  | deadlock
deriving DecidableEq, Repr

namespace SockState

def init : SockState := ⟨fun _ => .new .Stream, 0, [], .init⟩

variable (s : SockState)

def modify (a : Nat) (f : SockInner → SockInner) : SockState :=
  { s with socks := update s.socks a (f (s.socks a)) }

def create (ty : SockType) : SockState :=
  { s with
    socks := update s.socks s.next (.new ty)
    next := s.next + 1
    handles := s.handles ++ [s.next] }

section Socks

variable {s}

theorem socks_modify_self : (s.modify a f).socks a = f (s.socks a) := update_self ..

theorem socks_modify_ne (h : b ≠ a) : (s.modify a f).socks b = s.socks b := update_of_ne h ..

/-- A field that the change of one socket keeps. -/
theorem apply_modify {β : Type} (g : SockInner → β) (h : g (f (s.socks a)) = g (s.socks a)) :
    g ((s.modify a f).socks b) = g (s.socks b) := by
  by_cases hb : b = a
  · subst hb
    rw [socks_modify_self, h]
  · rw [socks_modify_ne hb]

theorem socks_create_next : (s.create ty).socks s.next = .new ty := update_self ..

theorem socks_create_ne (h : b ≠ s.next) : (s.create ty).socks b = s.socks b := update_of_ne h ..

end Socks

/-- The server side of a connection, and the two ends linked.  The client is not the
server. -/
def link (client server : Nat) : SockState :=
  let accepted := s.next
  let s₁ : SockState := { s with
    socks := update s.socks accepted
      { SockInner.new (s.socks server).ty with state := .Connected, peer := some client }
    next := s.next + 1 }
  let s₂ := s₁.modify client fun c => { c with state := .Connected, peer := some accepted }
  s₂.modify server fun v => { v with backlog := v.backlog ++ [accepted] }

/-- What a section of a task does, once the task runs.  A call on a handle that does not
exist fails. -/
def step (t : Nat) : SockSection → Option (SockState × List SockSection)
  | .create ty => some (s.create ty, [])
  | .bind a =>
    if a ∉ s.handles then some (s, [])
    else if (s.socks a).held then none
    else if (s.socks a).state ≠ .Unconnected then some (s, [])
    else some (s.modify a ({ · with state := .Connected }), [])
  | .listen a =>
    if a ∉ s.handles then some (s, [])
    else if (s.socks a).held then none
    else if (s.socks a).state ≠ .Unconnected ∧ (s.socks a).state ≠ .Connected then some (s, [])
    else some (s.modify a ({ · with state := .Listening }), [])
  | .connect client server =>
    if client ∉ s.handles ∨ server ∉ s.handles then some (s, [])
    else if (s.socks server).held then none
    else if (s.socks server).state ≠ .Listening then some (s, [])
    else if client = server ∨ (s.socks client).held then
      some (s.modify server ({ · with held := true }), [.deadlock])
    else some (s.link client server, [.wakeOne (.acceptWait server)])
  | .accept server =>
    if server ∉ s.handles then some (s, [])
    else if (s.socks server).held then none
    else
      match (s.socks server).backlog.getLast? with
      | some a =>
        some ({ s.modify server fun v => { v with backlog := v.backlog.dropLast } with
          handles := s.handles ++ [a] }, [])
      | none => some (s, [.wait (.acceptWait server), .accept server])
  | .read a len =>
    if a ∉ s.handles then some (s, [])
    else if (s.socks a).held then none
    else if 0 < (s.socks a).recv.len then
      let taken := (s.socks a).recv.read len
      some (s.modify a fun v => { v with recv := taken.2, received := v.received ++ taken.1 }, [])
    else if (s.socks a).state = .Closed then some (s, [])
    else some (s, [.wait (.recvWait a), .read a len])
  | .write a buf =>
    if a ∉ s.handles then some (s, [])
    else if (s.socks a).held then none
    else
      match (s.socks a).peer with
      | none => some (s, [])
      | some b => some (s, [.deliver b buf])
  | .deliver b buf =>
    if (s.socks b).held then none
    else
      let put := (s.socks b).recv.write buf
      some (s.modify b fun v => { v with recv := put.2, sent := v.sent ++ buf.take put.1 },
        [.wakeOne (.recvWait b)])
  | .wait q => some ({ s with parking := s.parking.park q t }, [.wait q])
  | .wakeOne q => some ({ s with parking := s.parking.wakeOne q }, [])
  | .deadlock => none

/-- The ways in which a section changes the sockets. -/
inductive Change : SockSection → SockState → Prop
  | same (sec : SockSection) (p : Parking SockQueue) : Change sec { s with parking := p }
  | create (ty : SockType) : Change (.create ty) (s.create ty)
  | bind {a : Nat} (hmem : a ∈ s.handles) (hstate : (s.socks a).state = .Unconnected) :
      Change (.bind a) (s.modify a ({ · with state := .Connected }))
  | listen {a : Nat} (hmem : a ∈ s.handles)
      (hstate : (s.socks a).state = .Unconnected ∨ (s.socks a).state = .Connected) :
      Change (.listen a) (s.modify a ({ · with state := .Listening }))
  | hold (client server : Nat) :
      Change (.connect client server) (s.modify server ({ · with held := true }))
  | link {client server : Nat} (hclient : client ∈ s.handles) (hserver : server ∈ s.handles)
      (hstate : (s.socks server).state = .Listening) (hne : client ≠ server) :
      Change (.connect client server) (s.link client server)
  | accept {server a : Nat} (hlast : (s.socks server).backlog.getLast? = some a) :
      Change (.accept server)
        { s.modify server fun v => { v with backlog := v.backlog.dropLast } with
          handles := s.handles ++ [a] }
  | read (a len : Nat) :
      Change (.read a len) (s.modify a fun v => { v with
        recv := ((s.socks a).recv.read len).2
        received := v.received ++ ((s.socks a).recv.read len).1 })
  | deliver (b : Nat) (buf : List UInt8) :
      Change (.deliver b buf) (s.modify b fun v => { v with
        recv := ((s.socks b).recv.write buf).2
        sent := v.sent ++ buf.take ((s.socks b).recv.write buf).1 })

variable {s} in
theorem Change.of_step {next : List SockSection}
    (h : s.step t sec = some (s', next)) : s.Change sec s' := by
  cases sec with
  | create ty =>
    cases h
    exact .create ty
  | bind a =>
    rw [step] at h
    split_ifs at h with hmem hheld hstate <;> cases h
    · exact .same _ s.parking
    · exact .bind hmem (not_not.mp hstate)
    · exact .same _ s.parking
  | listen a =>
    rw [step] at h
    split_ifs at h with hmem hheld hstate <;> cases h
    · exact .same _ s.parking
    · exact .listen hmem (by tauto)
    · exact .same _ s.parking
  | connect client server =>
    rw [step] at h
    split_ifs at h with hmem hheld hstate hself <;> cases h
    · exact .same _ s.parking
    · exact .same _ s.parking
    · exact .hold client server
    · rw [not_or, not_not, not_not] at hmem
      exact .link hmem.1 hmem.2 (not_not.mp hstate) fun heq => hself (.inl heq)
  | accept server =>
    rw [step] at h
    split_ifs at h
    · split at h <;> cases h
      · next a hlast => exact .accept hlast
      · exact .same _ s.parking
    · cases h
      exact .same _ s.parking
  | read a len =>
    rw [step] at h
    split_ifs at h <;> cases h
    · exact .read a len
    · exact .same _ s.parking
    · exact .same _ s.parking
    · exact .same _ s.parking
  | write a buf =>
    rw [step] at h
    split_ifs at h
    · split at h <;> cases h <;> exact .same _ s.parking
    · cases h
      exact .same _ s.parking
  | deliver b buf =>
    rw [step] at h
    split_ifs at h
    cases h
    exact .deliver b buf
  | wait q | wakeOne q =>
    cases h
    exact .same _ _
  | deadlock => cases h

/-- The sections as atomic steps of the tasks. -/
def exec : Interleaving.Exec SockState SockSection := fun t sec s =>
  (s.parking.resume t).bind fun p => step { s with parking := p } t sec

def IsCall : SockSection → Prop
  | .create _ | .bind _ | .listen _ | .connect .. | .accept _ | .read .. | .write .. => True
  | _ => False

instance (sec : SockSection) : Decidable (IsCall sec) := by
  cases sec <;> unfold IsCall <;> infer_instance

/-- A task that is not in a call may begin one. -/
def Calls (cfg : Interleaving.Config SockState SockSection) :
    Interleaving.Event SockSection → Prop
  | .run _ => True
  | .call t [sec] => cfg.todo t = [] ∧ IsCall sec
  | .call _ _ => False

instance (cfg : Interleaving.Config SockState SockSection) (ev : Interleaving.Event SockSection) :
    Decidable (Calls cfg ev) := by
  unfold Calls
  split <;> infer_instance

end SockState

end BoruixKernel
