import BoruixKernel.Lib.RingBuffer
import BoruixKernel.Task.WaitQueue

/-!
# Pipes

`PipeFs::read`, `write` and `close`, cut into the sections under the lock of the pipe and
those of the wait queues.  A loop of the source is a section that comes back among the
sections that follow it.  The lists `sent` and `received` are a record of the bytes that
went in and out; the source has no such record.
-/

namespace BoruixKernel

def PipeCapacity : Nat := 4096

theorem pipeCapacity_pos : 0 < PipeCapacity := by decide

structure PipeInner where
  ring : RingBuffer UInt8 PipeCapacity
  readers : Nat
  writers : Nat

/-- The two wait queues of a pipe. -/
inductive PipeQueue where
  | readWait
  | writeWait
deriving DecidableEq, Repr

structure PipeState where
  inner : PipeInner
  parking : Parking PipeQueue
  sent : List UInt8
  received : List UInt8

inductive PipeSection where
  /-- A round of `read` under the lock, with the length of the buffer. -/
  | read (len : Nat)
  /-- A round of `write` under the lock, with the bytes that are left. -/
  | write (buf : List UInt8)
  | close (write : Bool)
  /-- A round of `WaitQueue::wait`. -/
  | wait (q : PipeQueue)
  | wakeOne (q : PipeQueue)
  | wakeAll (q : PipeQueue)
deriving DecidableEq, Repr

namespace PipeState

/-- A pipe with a number of open ends; `pipefs_create_pair` makes one of each. -/
def init (readers writers : Nat) : PipeState :=
  ⟨⟨.new PipeCapacity pipeCapacity_pos 0, readers, writers⟩, .init, [], []⟩

variable (s : PipeState)

def readRound (len : Nat) : PipeState × List PipeSection :=
  if 0 < s.inner.ring.len then
    let taken := s.inner.ring.read len
    ({ s with inner := { s.inner with ring := taken.2 }, received := s.received ++ taken.1 },
      [.wakeOne .writeWait])
  else if s.inner.writers = 0 then (s, [])
  else (s, [.wait .readWait, .read len])

def writeRound (buf : List UInt8) : PipeState × List PipeSection :=
  if buf = [] then (s, [])
  else if s.inner.readers = 0 then (s, [])
  else if PipeCapacity - s.inner.ring.len = 0 then (s, [.wait .writeWait, .write buf])
  else
    let put := s.inner.ring.write buf
    ({ s with inner := { s.inner with ring := put.2 }, sent := s.sent ++ buf.take put.1 },
      [.wakeOne .readWait, .write (buf.drop put.1)])

def closeEnd (write : Bool) : PipeState :=
  if write then { s with inner := { s.inner with writers := s.inner.writers - 1 } }
  else { s with inner := { s.inner with readers := s.inner.readers - 1 } }

/-- What a section of a task does, once the task runs. -/
def step (t : Nat) : PipeSection → PipeState × List PipeSection
  | .read len => s.readRound len
  | .write buf => s.writeRound buf
  | .close write => (s.closeEnd write, [.wakeAll .readWait, .wakeAll .writeWait])
  | .wait q => ({ s with parking := s.parking.park q t }, [.wait q])
  | .wakeOne q => ({ s with parking := s.parking.wakeOne q }, [])
  | .wakeAll q => ({ s with parking := s.parking.wakeAll q }, [])

/-- The sections as atomic steps of the tasks. -/
def exec : Interleaving.Exec PipeState PipeSection := fun t sec s =>
  (s.parking.resume t).map fun p => step { s with parking := p } t sec

def IsCall : PipeSection → Prop
  | .read _ | .write _ | .close _ => True
  | _ => False

instance (sec : PipeSection) : Decidable (IsCall sec) := by
  cases sec <;> unfold IsCall <;> infer_instance

/-- A task that is not in a call may begin one. -/
def Calls (cfg : Interleaving.Config PipeState PipeSection) :
    Interleaving.Event PipeSection → Prop
  | .run _ => True
  | .call t [sec] => cfg.todo t = [] ∧ IsCall sec
  | .call _ _ => False

instance (cfg : Interleaving.Config PipeState PipeSection) (ev : Interleaving.Event PipeSection) :
    Decidable (Calls cfg ev) := by
  unfold Calls
  split <;> infer_instance

end PipeState

end BoruixKernel
