import BoruixKernel.Lib.PointerTrie
import BoruixKernel.Mm.Rmap

/-!
# The page-table mapper

`OffsetMapper`: mapping, unmapping and translating pages through four levels of
tables.  A table is named by its physical address.  The source reaches it at that
address plus the direct-map offset, and `table_phys` subtracts the offset again, so
the offset does not occur here.

An operation takes the state of the memory manager and returns its result with the
state it leaves, also when it fails: an early return keeps the tables created
before it.  `panic!` and a failed `assert!` are results of their own.  TLB flushes
and the migration lock are left out.

The mapper is generic in the frame allocator.  `FrameAllocator` carries what the
mapper may rely on: a frame handed out is not in use already.
-/

namespace BoruixKernel

inductive MapError where
  | FrameAllocationFailed
  | PageAlreadyMapped
  | PageNotMapped
  | ParentEntryHugePage
  | HugePageNotAligned
  | InvalidHugePageUnmap
  | InvalidAccess
deriving DecidableEq, Repr

/-- How an operation ends without a value: with an error, or with a panic. -/
inductive MapFault where
  | err (e : MapError)
  | panic (msg : String)
deriving DecidableEq, Repr

/-! ## State -/

/-- A frame allocator with states `σ`, and what it promises. -/
structure FrameAllocator (σ : Type) where
  /-- `allocate_frame`. -/
  allocateFrame : σ → Option PhysAddr × σ
  /-- `deallocate_frame`. -/
  deallocateFrame : σ → PhysAddr → σ
  /-- The frames handed out and not returned yet. -/
  held : σ → Set PhysAddr
  /-- All frame numbers are below this bound. -/
  totalFrames : Nat
  /-- A frame handed out is fresh. -/
  allocate_some : ∀ {a a' p}, allocateFrame a = (some p, a') →
    p.Frame ∧ p.pfn < totalFrames ∧ p ∉ held a ∧ held a' = insert p (held a)
  /-- A failed allocation changes nothing that is handed out. -/
  allocate_none : ∀ {a a'}, allocateFrame a = (none, a') → held a' = held a
  /-- A returned frame, and no other, is available again. -/
  deallocate : ∀ a p, held (deallocateFrame a p) = held a \ {p}

/-- The state the memory manager works on. -/
structure MmState (σ : Type) where
  /-- `PHYS_OFFSET`, once it is set. -/
  physOffset : Option UInt64
  /-- Physical memory, seen as page tables. -/
  tables : PhysAddr → PageTable
  /-- The use counters, once they are set up. -/
  counts : Option PageTableCountTable
  /-- The reverse map. -/
  rmap : Rmap
  /-- The state of the frame allocator. -/
  alloc : σ

/-- The result of an operation and the state it leaves. -/
abbrev MapResult (σ α : Type) := Except MapFault α × MmState σ

/-- Go on with the value, or return early.  This is `?`. -/
def MapResult.andThen {σ α β : Type} (r : MapResult σ α) (f : α → MmState σ → MapResult σ β) :
    MapResult σ β :=
  match r with
  | (.ok a, s) => f a s
  | (.error e, s) => (.error e, s)

namespace MmState

variable {σ : Type}

def setEntry (s : MmState σ) (t : PhysAddr) (i : Fin 512) (e : PageTableEntry) : MmState σ :=
  { s with tables := PointerTrie.set s.tables t i e }

def zeroFrame (s : MmState σ) (p : PhysAddr) : MmState σ :=
  { s with tables := Function.update s.tables p PageTable.zero }

def incCount (s : MmState σ) (t : PhysAddr) : MmState σ :=
  { s with counts := incTableCount s.counts t }

def decCount (s : MmState σ) (t : PhysAddr) : MmState σ :=
  { s with counts := decTableCount s.counts t }

/-- `set_addr` on one entry of a table. -/
def setAddr (s : MmState σ) (t : PhysAddr) (i : Fin 512) (addr : PhysAddr)
    (flags : PageTableFlags) : MapResult σ Unit :=
  if addr.isAligned 4096 then (.ok (), s.setEntry t i (.pack addr flags))
  else (.error (.panic "assertion failed: addr.is_aligned(4096)"), s)

/-- Whether the counter of a table, or a scan when it has none, says it is empty. -/
def tableEmpty (s : MmState σ) (t : PhysAddr) : Bool :=
  (tableCount s.counts t).getD (s.tables t).usedCount == 0

end MmState

/-! ## Mapping -/

section Mapper

variable {σ : Type} (A : FrameAllocator σ)

/-- The table under an entry, created if the entry is not present. -/
def getNextTableByIndex (table : PhysAddr) (index : Fin 512) (s : MmState σ) :
    MapResult σ PhysAddr :=
  let entry := s.tables table index
  if entry.present then
    if entry.huge then (.error (.err .ParentEntryHugePage), s)
    else (.ok entry.addr, s)
  else
    match A.allocateFrame s.alloc with
    | (none, a) => (.error (.err .FrameAllocationFailed), { s with alloc := a })
    | (some phys, a) =>
      let s := { s with alloc := a }
      if phys.asU64 = 0 then
        (.error (.panic "OffsetMapper: allocator returned frame at paddr 0"), s)
      else
        let s := s.zeroFrame phys
        (s.setAddr table index phys (.PRESENT ||| .WRITABLE ||| .USER_ACCESSIBLE)).andThen
          fun _ s =>
            -- The inner `table` shadows the parent, so this is the new table's own address.
            let parentPhys := phys
            (.ok phys, s.incCount parentPhys)

/-- Map a page: a 1 GiB or 2 MiB page with `HUGE_PAGE`, else a 4 KiB page. -/
def mapPageInner (p4 : PhysAddr) (page : VirtAddr) (frame : PhysAddr) (flags : PageTableFlags)
    (s : MmState σ) : MapResult σ Unit :=
  (getNextTableByIndex A p4 page.p4Index s).andThen fun p3 s =>
  if flags.contains .HUGE_PAGE && (page.isAligned 0x40000000 && frame.isAligned 0x40000000) then
    if !(s.tables p3 page.p3Index).isUnused then (.error (.err .PageAlreadyMapped), s)
    else
      (s.setAddr p3 page.p3Index frame (flags ||| .PRESENT ||| .HUGE_PAGE)).andThen fun _ s =>
        (.ok (), s.incCount p3)
  else
    (getNextTableByIndex A p3 page.p3Index s).andThen fun p2 s =>
    if flags.contains .HUGE_PAGE then
      if !(s.tables p2 page.p2Index).isUnused then (.error (.err .PageAlreadyMapped), s)
      else if !page.isAligned 0x200000 || !frame.isAligned 0x200000 then
        (.error (.err .HugePageNotAligned), s)
      else
        (s.setAddr p2 page.p2Index frame (flags ||| .PRESENT ||| .HUGE_PAGE)).andThen fun _ s =>
          (.ok (), s.incCount p2)
    else
      (getNextTableByIndex A p2 page.p2Index s).andThen fun p1 s =>
      if !(s.tables p1 page.p1Index).isUnused then (.error (.err .PageAlreadyMapped), s)
      else
        (s.setAddr p1 page.p1Index frame (flags ||| .PRESENT)).andThen fun _ s =>
          let s := s.incCount p1
          if flags.contains .USER_ACCESSIBLE then
            (.ok (), { s with rmap := rmapAdd s.rmap frame p4 page flags })
          else (.ok (), s)

/-! ## Unmapping -/

/-- If the table `child` has become empty, free it, clear the entry of `parent` that
points to it, and go on. -/
def reclaimTable (parent : PhysAddr) (index : Fin 512) (child : PhysAddr)
    (next : MmState σ → MmState σ) (s : MmState σ) : MmState σ :=
  if s.tableEmpty child then
    let s := { s with alloc := A.deallocateFrame s.alloc (s.tables parent index).addr }
    next ((s.setEntry parent index .new).decCount parent)
  else s

/-- Unmap the page that contains an address, and return its frame. -/
def unmapPageInner (p4 : PhysAddr) (page : VirtAddr) (s : MmState σ) : MapResult σ PhysAddr :=
  let p4Entry := s.tables p4 page.p4Index
  if !p4Entry.present then (.error (.err .PageNotMapped), s) else
  let p3 := p4Entry.addr
  let p3Entry := s.tables p3 page.p3Index
  if !p3Entry.present then (.error (.err .PageNotMapped), s) else
  let reclaimP3 := reclaimTable A p4 page.p4Index p3 id
  if p3Entry.huge then
    (.ok p3Entry.addr, reclaimP3 ((s.setEntry p3 page.p3Index .new).decCount p3))
  else
  let p2 := p3Entry.addr
  let p2Entry := s.tables p2 page.p2Index
  if !p2Entry.present then (.error (.err .PageNotMapped), s) else
  let reclaimP2 := reclaimTable A p3 page.p3Index p2 reclaimP3
  if p2Entry.huge then
    (.ok p2Entry.addr, reclaimP2 ((s.setEntry p2 page.p2Index .new).decCount p2))
  else
  let p1 := p2Entry.addr
  let p1Entry := s.tables p1 page.p1Index
  if !p1Entry.present then (.error (.err .PageNotMapped), s) else
  let frame := p1Entry.addr
  let s := (s.setEntry p1 page.p1Index .new).decCount p1
  let s :=
    if p1Entry.flags.contains .USER_ACCESSIBLE then
      { s with rmap := rmapRemove s.rmap frame p4 page }
    else s
  (.ok frame, reclaimTable A p2 page.p2Index p1 reclaimP2 s)

end Mapper

/-! ## Translation -/

/-- The physical address a virtual address translates to. -/
def OffsetMapper.translate (tables : PhysAddr → PageTable) (p4 : PhysAddr) (addr : VirtAddr) :
    Option PhysAddr :=
  let p4Entry := tables p4 addr.p4Index
  if !p4Entry.present then none else
  let p3Entry := tables p4Entry.addr addr.p3Index
  if !p3Entry.present then none else
  if p3Entry.huge then some ⟨p3Entry.addr.asU64 + (addr.asU64 &&& 0x3fffffff)⟩ else
  let p2Entry := tables p3Entry.addr addr.p2Index
  if !p2Entry.present then none else
  if p2Entry.huge then some ⟨p2Entry.addr.asU64 + (addr.asU64 &&& 0x1fffff)⟩ else
  let p1Entry := tables p2Entry.addr addr.p1Index
  if !p1Entry.present then none else
  some ⟨p1Entry.addr.asU64 + (addr.asU64 &&& 0xfff)⟩

end BoruixKernel
