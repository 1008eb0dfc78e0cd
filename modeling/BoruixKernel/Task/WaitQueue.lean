import BoruixKernel.Task.Scheduler

/-!
# Wait queues

What a wait queue and the ready queues do to the tasks that use a device or a pipe, with
each locked section as one step.  The queues are numbered by a type `κ`.

`WaitQueue::wait` is `wait_while` with a condition that is always true.  A task that is
woken looks at the condition again and parks again, so a task never comes back from it.
-/

namespace BoruixKernel

open Function

/-- Tasks that run, wait, or are ready to run. -/
structure Parking (κ : Type) where
  status : Nat → TaskStatus
  inRunQueue : Nat → Bool
  /-- The tasks in the ready queues. -/
  ready : List Nat
  waiters : κ → List Nat

namespace Parking

variable {κ : Type} [DecidableEq κ] (p : Parking κ)

def init : Parking κ := ⟨fun _ => .Running, fun _ => false, [], fun _ => []⟩

/-- The section of `wait_while` in which the task parks. -/
def park (q : κ) (t : Nat) : Parking κ where
  status := update p.status t .Waiting
  inRunQueue := update p.inRunQueue t false
  ready := p.ready
  waiters := update p.waiters q
    (if t ∈ p.waiters q then p.waiters q else p.waiters q ++ [t])

def enqueueReady (t : Nat) : Parking κ :=
  if p.inRunQueue t then p
  else if p.status t = .Exited then p
  else { p with
    status := update p.status t .Ready
    inRunQueue := update p.inRunQueue t true
    ready := p.ready ++ [t] }

/-- The youngest waiter is woken. -/
def wakeOne (q : κ) : Parking κ :=
  match (p.waiters q).getLast? with
  | none => p
  | some t => enqueueReady { p with waiters := update p.waiters q (p.waiters q).dropLast } t

def wakeAll (q : κ) : Parking κ :=
  (p.waiters q).foldl enqueueReady { p with waiters := update p.waiters q [] }

/-- The task goes on, if it runs or is fetched from a ready queue. -/
def resume (t : Nat) : Option (Parking κ) :=
  match p.status t with
  | .Running => some p
  | .Ready => some { p with
      status := update p.status t .Running
      inRunQueue := update p.inRunQueue t false
      ready := p.ready.erase t }
  | .Waiting | .Exited => none

end Parking

end BoruixKernel
