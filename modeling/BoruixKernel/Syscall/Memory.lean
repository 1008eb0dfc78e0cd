import BoruixKernel.Mm.AddressSpace

/-!
# Memory system calls

`sys_sbrk` moves the end of the heap of the current task.  Growing maps the new pages
as one area.  Shrinking unmaps pages and leaves the areas as they are.
-/

namespace BoruixKernel

structure HeapBounds where
  heapStart : UInt64
  heapEnd : UInt64
  heapMax : UInt64

def heapFlags : PageTableFlags := .PRESENT ||| .WRITABLE ||| .USER_ACCESSIBLE ||| .NO_EXECUTE

/-- The end of the heap after an increment, saturating. -/
def HeapBounds.newEnd (h : HeapBounds) (increment : Int64) : UInt64 :=
  if increment > 0 then
    let inc := increment.toUInt64
    if h.heapEnd.toNat + inc.toNat < 2 ^ 64 then h.heapEnd + inc else UInt64.ofNat (2 ^ 64 - 1)
  else
    -- The negation wraps on the least integer.
    let dec := (-increment).toUInt64
    if dec ≤ h.heapEnd then h.heapEnd - dec else 0

section Sbrk

variable {σ : Type} (A : FrameAllocator σ)

/-- Map fresh zeroed frames at pages that were unmapped.  The result of mapping is
ignored; a page without a frame ends the loop. -/
def sbrkRemap (p4 : PhysAddr) : List VirtAddr → MmState σ → MapResult σ Unit
  | [], s => (.ok (), s)
  | page :: pages, s =>
    match A.allocateFrame s.alloc with
    | (none, a) => (.ok (), { s with alloc := a })
    | (some phys, a) =>
      let s := { s with alloc := a }
      if s.physOffset.isNone then (.ok (), s)
      else
        match mapPageInner A p4 page phys heapFlags (s.zeroFrame phys) with
        | (.error (.panic msg), s) => (.error (.panic msg), s)
        | (_, s) => sbrkRemap p4 pages s

/-- Unmap pages and free their frames.  On a page that is not mapped, the pages before it
are mapped again and the call fails. -/
def sbrkUnmap (p4 : PhysAddr) : List VirtAddr → List VirtAddr → MmState σ → MapResult σ Bool
  | [], _, s => (.ok true, s)
  | page :: pages, unmapped, s =>
    match unmapPageInner A p4 page s with
    | (.ok phys, s) => sbrkUnmap p4 pages (unmapped ++ [page]) (s.release A phys)
    | (.error _, s) => (sbrkRemap A p4 unmapped.reverse s).andThen fun _ s => (.ok false, s)

/-- `sys_sbrk` of the task with address space `ms`: the old end of the heap, or -1. -/
def sysSbrk (ms : MemorySet) (heap : HeapBounds) (increment : Int64) (s : MmState σ) :
    Except MapFault Int64 × HeapBounds × MemorySet × MmState σ :=
  let old := heap.heapEnd
  if increment = 0 then (.ok old.toInt64, heap, ms, s)
  else
    let newEnd := heap.newEnd increment
    let moved := { heap with heapEnd := newEnd }
    if newEnd < heap.heapStart || newEnd > heap.heapMax then (.ok (-1), heap, ms, s)
    else if increment > 0 then
      let mapStart := VirtAddr.alignUp ⟨old⟩ 4096
      let mapEnd := VirtAddr.alignUp ⟨newEnd⟩ 4096
      if mapEnd.asU64 > mapStart.asU64 then
        match ms.mapUserRange A mapStart mapEnd heapFlags s with
        | (.error (.panic msg), ms, s) => (.error (.panic msg), heap, ms, s)
        | (.error (.err _), ms, s) => (.ok (-1), heap, ms, s)
        | (.ok (), ms, s) => (.ok old.toInt64, moved, ms, s)
      else (.ok old.toInt64, moved, ms, s)
    else
      let unmapStart := VirtAddr.alignUp ⟨newEnd⟩ 4096
      let unmapEnd := VirtAddr.alignUp ⟨old⟩ 4096
      if unmapEnd.asU64 > unmapStart.asU64 then
        if s.physOffset.isNone then (.ok (-1), heap, ms, s)
        else
          match sbrkUnmap A ms.p4Phys (pagesBetween unmapStart unmapEnd) [] s with
          | (.error e, s) => (.error e, heap, ms, s)
          | (.ok false, s) => (.ok (-1), heap, ms, s)
          | (.ok true, s) => (.ok old.toInt64, moved, ms, s)
      else (.ok old.toInt64, moved, ms, s)

end Sbrk

end BoruixKernel
