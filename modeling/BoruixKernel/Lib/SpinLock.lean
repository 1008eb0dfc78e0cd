import Mathlib

/-!
# Spin locks

Programs on a shared state that take locks.  A lock is held or free, and a program that takes a lock
it holds waits for ever: it has no result.
-/

namespace SpinLock

variable {ι σ α : Type}

/-- A state, and the locks that are held. -/
structure Locked (ι σ : Type) where
  state : σ
  held : List ι

/-- A program; it may wait for ever. -/
abbrev LockM (ι σ : Type) := StateT (Locked ι σ) Option

def change (f : σ → σ) : LockM ι σ Unit := modify fun w => { w with state := f w.state }

variable [DecidableEq ι] {l : ι} {w : Locked ι σ}

/-- Run a program with a lock taken, and release it then. -/
def under (l : ι) (body : LockM ι σ α) : LockM ι σ α := do
  let w ← get
  if l ∈ w.held then failure
  set { w with held := l :: w.held }
  let a ← body
  modify fun w => { w with held := w.held.erase l }
  return a

theorem under_run (body : LockM ι σ α) : (under l body).run w =
    if l ∈ w.held then none
    else (body.run { w with held := l :: w.held }).map fun (a, w) => (a, { w with held := w.held.erase l }) := by
  by_cases h : l ∈ w.held
  · simp [under, h]
  · simp [under, h, Option.map_eq_bind]

end SpinLock
