import BoruixKernel.Fs.Pipe
import BoruixKernel.Fs.Socket

/-!
# Pipes and sockets are queues of bytes

For a pipe and for the buffer of each socket, the bytes that were read followed by those
that are buffered are the bytes that were written.  Only the sections of `read` and `write`
touch a buffer, and they do it as the ring buffer does, so the fact is kept by every
section, and with that in every interleaving.
-/

namespace BoruixKernel

open RingBuffer

open Interleaving (Config Reach)

/-! ## Pipes -/

/-- The bytes read and those in the buffer are the bytes written, and the buffer holds no
more than it has room for. -/
def PipeState.IsFifo (s : PipeState) : Prop :=
  s.received ++ s.inner.ring.contents = s.sent ∧ s.inner.ring.len ≤ PipeCapacity

namespace PipeState

theorem isFifo_init (readers writers : Nat) : (init readers writers).IsFifo := ⟨rfl, Nat.zero_le _⟩

variable {s s' : PipeState} {next : List PipeSection}

/-- Sections other than a round of `read` or `write` leave the bytes alone. -/
theorem IsFifo.of_eq (h : s.IsFifo) (hring : s'.inner.ring = s.inner.ring)
    (hsent : s'.sent = s.sent) (hreceived : s'.received = s.received) : s'.IsFifo := by
  unfold IsFifo
  rw [hring, hsent, hreceived]
  exact h

theorem IsFifo.readRound (h : s.IsFifo) (len : Nat) : (s.readRound len).1.IsFifo := by
  unfold PipeState.readRound
  split
  · exact ⟨received_read len h.1, len_le _⟩
  · split <;> exact h

theorem IsFifo.writeRound (h : s.IsFifo) (buf : List UInt8) : (s.writeRound buf).1.IsFifo := by
  unfold PipeState.writeRound
  split
  · exact h
  · split
    · exact h
    · split
      · exact h
      · exact ⟨received_write buf h.1, len_le _⟩

theorem IsFifo.step (h : s.IsFifo) (t : Nat) (sec : PipeSection) : (s.step t sec).1.IsFifo := by
  cases sec with
  | read len => exact h.readRound len
  | write buf => exact h.writeRound buf
  | close write => cases write <;> exact h.of_eq rfl rfl rfl
  | wait q | wakeOne q | wakeAll q => exact h.of_eq rfl rfl rfl

theorem IsFifo.exec (h : s.IsFifo)
    (hexec : PipeState.exec t sec s = some (s', next)) : s'.IsFifo := by
  obtain ⟨p, -, hstep⟩ := Option.map_eq_some_iff.mp hexec
  have hp : ({ s with parking := p } : PipeState).IsFifo := h.of_eq rfl rfl rfl
  have hkeep := hp.step t sec
  rw [hstep] at hkeep
  exact hkeep

end PipeState

/-! ## Sockets -/

/-- The same for the buffer of a socket. -/
def SockInner.IsFifo (v : SockInner) : Prop :=
  v.received ++ v.recv.contents = v.sent ∧ v.recv.len ≤ SockCapacity

theorem SockInner.isFifo_new (ty : SockType) : (SockInner.new ty).IsFifo := ⟨rfl, Nat.zero_le _⟩

/-- The buffers of all sockets. -/
def SockState.IsFifo (s : SockState) : Prop := ∀ a, (s.socks a).IsFifo

namespace SockState

variable {s s' : SockState} {next : List SockSection}

theorem IsFifo.update (h : s.IsFifo) (a : Nat) (hv : v.IsFifo) (b : Nat) :
    (Function.update s.socks a v b).IsFifo := by
  by_cases hb : b = a
  · subst hb
    rw [Function.update_self]
    exact hv
  · rw [Function.update_of_ne hb]
    exact h b

theorem IsFifo.modify (h : s.IsFifo) (a : Nat)
    (hf : (f (s.socks a)).IsFifo) : (s.modify a f).IsFifo :=
  h.update a hf

theorem IsFifo.link (h : s.IsFifo) (client server : Nat) : (s.link client server).IsFifo := by
  have hfresh : IsFifo { s with
      socks := Function.update s.socks s.next
        { SockInner.new (s.socks server).ty with state := .Connected, peer := some client }
      next := s.next + 1 } := h.update s.next (SockInner.isFifo_new (s.socks server).ty)
  have hclient := hfresh.modify client (f := fun c => { c with state := .Connected, peer := some s.next })
    (hfresh client)
  refine hclient.modify server (f := fun v => { v with backlog := v.backlog ++ [s.next] }) ?_
  exact hclient server

theorem IsFifo.change (h : s.IsFifo) (hchange : s.Change sec s') : s'.IsFifo := by
  cases hchange with
  | same => exact h
  | create ty => exact h.update s.next (SockInner.isFifo_new ty)
  | bind | listen | hold | accept =>
    refine h.update _ ?_
    exact h _
  | link => exact h.link _ _
  | read a len =>
    refine h.modify a ?_
    exact ⟨received_read len (h a).1, len_le _⟩
  | deliver b buf =>
    refine h.modify b ?_
    exact ⟨received_write buf (h b).1, len_le _⟩

theorem IsFifo.exec (h : s.IsFifo)
    (hexec : SockState.exec t sec s = some (s', next)) : s'.IsFifo := by
  obtain ⟨p, -, hstep⟩ := Option.bind_eq_some_iff.mp hexec
  have hp : ({ s with parking := p } : SockState).IsFifo := h
  exact hp.change (.of_step hstep)

end SockState

/-! ## All interleavings -/

/-- In every state that tasks reach by calls on a pipe with any number of ends, and in every
state they reach by calls on sockets, the buffers are queues of bytes. -/
theorem channels_isFifo :
    (∀ (readers writers : Nat) (cfg : Config PipeState PipeSection),
      Reach PipeState.exec PipeState.Calls ⟨.init readers writers, fun _ => []⟩ cfg →
        cfg.shared.IsFifo) ∧
    (∀ cfg : Config SockState SockSection,
      Reach SockState.exec SockState.Calls ⟨.init, fun _ => []⟩ cfg → cfg.shared.IsFifo) := by
  constructor
  · intro readers writers cfg h
    exact h.shared (PipeState.isFifo_init readers writers) fun hs hexec => hs.exec hexec
  · intro cfg h
    exact h.shared (fun _ => SockInner.isFifo_new .Stream) fun hs hexec => hs.exec hexec

/-- Two tasks exchange two bytes over a pipe, the second of which stays in it, and then over
a connected pair of sockets. -/
theorem channels_isFifo_exchange :
    (∃ cfg, Reach PipeState.exec PipeState.Calls ⟨.init 1 1, fun _ => []⟩ cfg ∧
      cfg.shared.received = [7] ∧ cfg.shared.sent = [7, 8] ∧ cfg.shared.IsFifo) ∧
    (∃ cfg, Reach SockState.exec SockState.Calls ⟨.init, fun _ => []⟩ cfg ∧
      (cfg.shared.socks 2).received = [7] ∧ (cfg.shared.socks 2).sent = [7, 8] ∧
      cfg.shared.IsFifo) := by
  constructor
  · obtain ⟨cfg, hreach, hreceived, hsent⟩ := Reach.exists_runAll PipeState.exec PipeState.Calls
      ⟨.init 1 1, fun _ => []⟩ (P := fun cfg => cfg.shared.received = [7] ∧ cfg.shared.sent = [7, 8])
      [.call 0 [.write [7, 8]], .run 0, .call 1 [.read 1], .run 1] (by decide +kernel)
    exact ⟨cfg, hreach, hreceived, hsent, channels_isFifo.1 1 1 cfg hreach⟩
  · obtain ⟨cfg, hreach, hreceived, hsent⟩ := Reach.exists_runAll SockState.exec SockState.Calls
      ⟨.init, fun _ => []⟩
      (P := fun cfg => (cfg.shared.socks 2).received = [7] ∧ (cfg.shared.socks 2).sent = [7, 8])
      [.call 0 [.create .Stream], .run 0, .call 0 [.create .Stream], .run 0, .call 0 [.listen 0], .run 0,
        .call 1 [.connect 1 0], .run 1, .run 1, .call 0 [.accept 0], .run 0,
        .call 1 [.write 1 [7, 8]], .run 1, .run 1, .call 0 [.read 2 1], .run 0] (by decide +kernel)
    exact ⟨cfg, hreach, hreceived, hsent, channels_isFifo.2 cfg hreach⟩

/-! ## The end of a pipe -/

/-- In every interleaving, a `read` that ends without bytes finds no writer left, and all bytes that
were written have been read. -/
theorem PipeState.endOfFile_drained
    (hreach : Reach exec Calls ⟨.init readers writers, fun _ => []⟩ cfg)
    (hexec : exec t (.read n) cfg.shared = some (s, [])) :
    s.received = s.sent ∧ s.inner.writers = 0 := by
  have hfifo := IsFifo.exec (hreach.shared (isFifo_init readers writers) fun hs => IsFifo.exec hs) hexec
  obtain ⟨p, -, hstep⟩ := Option.map_eq_some_iff.mp hexec
  simp only [step, readRound] at hstep
  split at hstep
  · cases hstep
  · next hempty =>
    split at hstep
    · next hnone =>
      cases hstep
      have hcontents := List.eq_nil_of_length_eq_zero (length_contents.trans (Nat.eq_zero_of_not_pos hempty))
      refine ⟨?_, hnone⟩
      rw [← hfifo.1, hcontents, List.append_nil]
    · cases hstep

/-- A byte is written and read, and the writer closes its end. -/
theorem endOfFile_drained_byte : ∃ cfg s,
    Reach PipeState.exec PipeState.Calls ⟨.init 1 1, fun _ => []⟩ cfg ∧
      PipeState.exec 1 (.read 1) cfg.shared = some (s, []) ∧ s.sent = [7] ∧ s.received = [7] := by
  obtain ⟨cfg, hreach, hread⟩ := Reach.exists_runAll PipeState.exec PipeState.Calls
    ⟨.init 1 1, fun _ => []⟩ (P := fun cfg =>
      (PipeState.exec 1 (.read 1) cfg.shared).map (fun r => (r.2, r.1.sent)) = some ([], [7]))
    [.call 0 [.write [7]], .run 0, .run 0, .run 0, .call 1 [.read 1], .run 1, .run 1,
      .call 0 [.close true], .run 0] (by decide +kernel)
  obtain ⟨⟨s, next⟩, hexec, heq⟩ := Option.map_eq_some_iff.mp hread
  obtain ⟨rfl, hsent⟩ := Prod.mk.inj heq
  exact ⟨cfg, s, hreach, hexec, hsent, (PipeState.endOfFile_drained hreach hexec).1.trans hsent⟩

end BoruixKernel
