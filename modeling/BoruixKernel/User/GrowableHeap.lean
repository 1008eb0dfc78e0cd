import BoruixKernel.Lib.SpinLock

/-!
# The heap of user programs

`GrowableHeap` asks the kernel for memory if its inner heap has none left.  The inner heap is behind
a lock, and the guard that `alloc` takes for its first attempt lives until the end of the `match` on
the result.  So it is held while `grow` takes the lock again: no allocation comes back from a heap
that has grown (`alloc_returns_iff`).

The inner heap is any pair of functions, and what `sys_sbrk` returns is an argument.
-/

namespace BoruixKernel

open SpinLock

structure Layout where
  size : UInt64
  align : UInt64

/-- `linked_list_allocator::Heap`. -/
structure InnerHeap (η : Type) where
  allocateFirstFit : Layout → η → Option UInt64 × η
  extend : UInt64 → η → η

structure GrowableHeap (η : Type) where
  inner : η
  heapEnd : UInt64
  sbrkCount : UInt64
  sbrkBytes : UInt64

namespace GrowableHeap

variable {η : Type} (H : InnerHeap η) (layout : Layout) (old : Int64)

/-- The lock of the inner heap is the only one. -/
abbrev HeapM (η : Type) := LockM Unit (GrowableHeap η)

def alignUp (x align : UInt64) : UInt64 := (x + align - 1) &&& ~~~ (align - 1)

def grow (minBytes : UInt64) : HeapM η Bool := do
  let grow := alignUp (max minBytes (1024 * 1024)) 4096
  if old < 0 then return false
  under () (change fun h => { h with inner := H.extend grow h.inner })
  change fun h => { h with
    heapEnd := h.heapEnd + grow, sbrkCount := h.sbrkCount + 1, sbrkBytes := h.sbrkBytes + grow }
  return true

/-- An attempt with the lock held. -/
def allocateFirstFit : HeapM η (Option UInt64) := do
  let h := (← get).state
  let (ptr, inner) := H.allocateFirstFit layout h.inner
  change fun h => { h with inner }
  return ptr

/-- The null pointer is zero. -/
def alloc : HeapM η UInt64 := do
  if layout.size = 0 then return layout.align
  under () do
    match ← allocateFirstFit H layout with
    | some ptr => return ptr
    | none =>
      if ← grow H old layout.size then
        under () do
          match ← allocateFirstFit H layout with
          | some ptr => return ptr
          | none => return 0
      else return 0

/-- The allocation comes to an end, with the lock released. -/
def Returns (h : GrowableHeap η) : Prop :=
  ∃ ptr h', (alloc H layout old).run ⟨h, []⟩ = some (ptr, ⟨h', []⟩)

/-- An allocation returns exactly if it needs no growth or gets none. -/
theorem alloc_returns_iff (h : GrowableHeap η) :
    Returns H layout old h ↔
      layout.size = 0 ∨ (H.allocateFirstFit layout h.inner).1.isSome ∨ old < 0 := by
  unfold Returns alloc
  by_cases hsize : layout.size = 0
  · simp [hsize]
  · cases hfit : (H.allocateFirstFit layout h.inner).1 with
    | some ptr => simp [hsize, under_run, allocateFirstFit, change, hfit]
    | none =>
      by_cases hold : old < 0
      · simp [hsize, under_run, allocateFirstFit, change, hfit, grow, hold]
      · simp [hsize, under_run, allocateFirstFit, change, hfit, grow, hold]

/-- A heap without room, which never gets any. -/
def fullHeap : InnerHeap Unit := ⟨fun _ _ => (none, ()), fun _ _ => ()⟩

/-- The kernel has memory, and the allocation waits for ever. -/
theorem alloc_waits_forever : (alloc fullHeap ⟨8, 8⟩ 0x400000).run ⟨⟨(), 0x400000, 0, 0⟩, []⟩ = none ∧
    ¬ Returns fullHeap ⟨8, 8⟩ 0x400000 ⟨(), 0x400000, 0, 0⟩ := by
  have hrun : (alloc fullHeap ⟨8, 8⟩ 0x400000).run ⟨⟨(), 0x400000, 0, 0⟩, []⟩ = none := rfl
  refine ⟨hrun, ?_⟩
  rintro ⟨ptr, h', hreturns⟩
  cases hrun.symm.trans hreturns

end GrowableHeap

end BoruixKernel
