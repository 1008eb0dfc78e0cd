import BoruixKernel.Mm.MemorySet

/-!
# Address spaces: the operations

What changes an address space, from `new_bare`, `fork` or `from_elf` to `Drop`.  A
frame the operations fill with data is the same physical memory the page tables live
in, seen as bytes (`PageTable.byte`).

On an early return the source drops the address space it was building, so `fork` and
`from_elf` end in `drop` when they fail.  A panic stops the kernel and drops nothing.
-/

namespace BoruixKernel

inductive MmError where
  | InvalidElf
  | NotExecutable
  | Not64Bit
  | InvalidElfMagic
  | PhysOffsetMissing
  | FrameAllocationFailed
  | Map (e : MapError)
  | AreaOverlap
  | TranslationFailed
  | MapFailed
deriving DecidableEq, Repr

/-- How such an operation ends without a value.  A loop that goes on for more rounds than
there are pages is `stuck`. -/
inductive MmFault where
  | err (e : MmError)
  | panic (msg : String)
  | stuck
deriving DecidableEq, Repr

/-- A fault of the mapper, with its error replaced. -/
def MapFault.toMm (f : MapError → MmError) : MapFault → MmFault
  | .err e => .err (f e)
  | .panic msg => .panic msg

/-! ## Memory as bytes -/

namespace PageTable

/-- One byte of a frame. -/
def byte (t : PageTable) (b : Nat) : UInt8 :=
  ((t (Fin.ofNat 512 (b / 8))).entry >>> UInt64.ofNat (8 * (b % 8))).toUInt8

/-- The frame with given bytes, eight to an entry, the low byte first. -/
def ofBytes (f : Nat → UInt8) : PageTable := fun i =>
  ⟨(List.range 8).foldr (fun k w => (w <<< 8) ||| (f (8 * i + k)).toUInt64) 0⟩

/-- Overwrite the bytes from an offset on. -/
def overwrite (t : PageTable) (off : Nat) (data : List UInt8) : PageTable :=
  ofBytes fun b => if off ≤ b then data.getD (b - off) (t.byte b) else t.byte b

end PageTable

namespace MmState

variable {σ : Type}

/-- Copy bytes into a frame. -/
def storeBytes (s : MmState σ) (p : PhysAddr) (off : Nat) (data : List UInt8) : MmState σ :=
  { s with tables := Function.update s.tables p ((s.tables p).overwrite off data) }

def copyFrame (s : MmState σ) (src dst : PhysAddr) : MmState σ :=
  { s with tables := Function.update s.tables dst (s.tables src) }

end MmState

/-- The pages of `[start, stop)`, in steps of 4096 from `start`. -/
def pagesBetween (start stop : VirtAddr) : List VirtAddr :=
  (List.range ((stop.asU64.toNat - start.asU64.toNat + 4095) / 4096)).map fun k =>
    ⟨start.asU64 + 4096 * UInt64.ofNat k⟩

/-- The pages of an area, its bounds rounded outwards. -/
def MemoryArea.pages (a : MemoryArea) : List VirtAddr :=
  pagesBetween (a.start.alignDown 4096) (a.end.alignUp 4096)

def MemorySet.insertArea (ms : MemorySet) (area : MemoryArea) : Except MapError Unit × MemorySet :=
  let r := ms.vma.insertArea area
  (r.1, { ms with vma := r.2, vma_good := ms.vma_good.insertArea area })

section Operations

variable {σ : Type} (A : FrameAllocator σ)

/-- `deallocate_frame`. -/
def MmState.release (s : MmState σ) (p : PhysAddr) : MmState σ :=
  { s with alloc := A.deallocateFrame s.alloc p }

/-! ## Creation and destruction -/

/-- An empty address space: the kernel half of the P4 is copied from the kernel's own. -/
def MemorySet.newBare (kernelP4 : PhysAddr) (s : MmState σ) :
    Except MmFault MemorySet × MmState σ :=
  match A.allocateFrame s.alloc with
  | (none, a) => (.error (.err .FrameAllocationFailed), { s with alloc := a })
  | (some phys, a) =>
    let s := { s with alloc := a }
    match s.physOffset with
    | none => (.error (.err .PhysOffsetMissing), s)
    | some physOffset =>
      let s := s.zeroFrame phys
      let table : PageTable := fun i =>
        if 256 ≤ i.val then s.tables kernelP4 i else s.tables phys i
      let s := { s with tables := Function.update s.tables phys table }
      let hhdmP4 := VirtAddr.p4Index ⟨physOffset⟩
      if !(s.tables phys hhdmP4).present then
        (.error (.panic s!"MemorySet: missing HHDM mapping in new P4 (index {hhdmP4})"), s)
      else
        (.ok ⟨phys, .new, none, none, none, VmaTree.Good.new⟩, s)

/-- Unmap a page and free the frame it was mapped to. -/
def unmapAndFree (p4 : PhysAddr) (s : MmState σ) (page : VirtAddr) : MmState σ :=
  match unmapPageInner A p4 page s with
  | (.ok phys, s) => s.release A phys
  | (.error _, s) => s

variable (ms : MemorySet)

/-- `Drop`: unmap the pages of all areas, then free the P4. -/
def MemorySet.drop (s : MmState σ) : MmState σ :=
  if s.physOffset.isNone then s
  else
    let s := (ms.vma.areasInOrder.flatMap (·.pages)).foldl (unmapAndFree A ms.p4Phys) s
    if ms.p4Phys.isAligned 4096 then s.release A ms.p4Phys else s

/-! ## Mapping ranges -/

/-- Undo mappings, the last first: unmap a page, and if that succeeds free the frame
recorded for it. -/
def rollback (p4 : PhysAddr) (mapped : List (VirtAddr × PhysAddr)) (s : MmState σ) : MmState σ :=
  mapped.reverse.foldl (fun s (page, phys) =>
    match unmapPageInner A p4 page s with
    | (.ok _, s) => s.release A phys
    | (.error _, s) => s) s

/-- The part of the data that belongs to a page.  The difference wraps on the first page
of an area whose start is not aligned. -/
def pageData (start : VirtAddr) (page : VirtAddr) (data : List UInt8) : List UInt8 :=
  (data.drop (page.asU64 - start.asU64).toNat).take 4096

/-- The loop of `push`.  A page without a frame ends it without a rollback. -/
def pushPages (p4 : PhysAddr) (area : MemoryArea) (data : Option (List UInt8)) :
    List VirtAddr → List (VirtAddr × PhysAddr) → MmState σ → MapResult σ Unit
  | [], _, s => (.ok (), s)
  | page :: pages, mapped, s =>
    match A.allocateFrame s.alloc with
    | (none, a) => (.error (.err .FrameAllocationFailed), { s with alloc := a })
    | (some phys, a) =>
      match mapPageInner A p4 page phys area.flags { s with alloc := a } with
      | (.error (.err e), s) => (.error (.err e), rollback A p4 mapped s)
      | (.error (.panic msg), s) => (.error (.panic msg), s)
      | (.ok (), s) =>
        let s := s.zeroFrame phys
        let s := match data with
          | some data => s.storeBytes phys 0 (pageData area.start page data)
          | none => s
        pushPages p4 area data pages (mapped ++ [(page, phys)]) s

/-- Map an area on fresh frames, fill them, and record the area. -/
def MemorySet.push (area : MemoryArea) (data : Option (List UInt8)) (s : MmState σ) :
    Except MapFault Unit × MemorySet × MmState σ :=
  if s.physOffset.isNone then (.error (.err .InvalidAccess), ms, s)
  else
    match pushPages A ms.p4Phys area data area.pages [] s with
    | (.error e, s) => (.error e, ms, s)
    | (.ok (), s) =>
      let (r, ms) := ms.insertArea area
      (r.mapError .err, ms, s)

/-- Map `[start, end)`. -/
def MemorySet.mapUserRange (start «end» : VirtAddr) (flags : PageTableFlags) (s : MmState σ) :
    Except MapFault Unit × MemorySet × MmState σ :=
  if start.asU64 ≥ «end».asU64 then (.ok (), ms, s)
  else ms.push A (.new start «end» flags) none s

/-! ## Page faults -/

structure PageFaultErrorCode where
  protectionViolation : Bool
  causedByWrite : Bool
  userMode : Bool
  instructionFetch : Bool
deriving DecidableEq, Repr

/-- Whether the flags of an area forbid the access that faulted. -/
def faultForbidden (flags : PageTableFlags) (code : PageFaultErrorCode) : Bool :=
  (code.causedByWrite && !flags.contains .WRITABLE) ||
  (code.userMode && !flags.contains .USER_ACCESSIBLE) ||
  (code.instructionFetch && flags.contains .NO_EXECUTE)

/-- The page below the stack that a fault asks for, and the current bottom. -/
def MemorySet.growthPage (addr : VirtAddr) (code : PageFaultErrorCode) : Option (VirtAddr × VirtAddr) :=
  if !code.userMode then none
  else
    match ms.stackBottom, ms.stackTop, ms.stackLimit with
    | some bottom, some top, some limit =>
      if addr.asU64 ≥ top.asU64 || addr.asU64 < limit.asU64 || addr.asU64 ≥ bottom.asU64 then none
      else
        let page := addr.alignDown 4096
        if page.asU64 < limit.asU64 then none else some (page, bottom)
    | _, _, _ => none

/-- `try_grow_stack`: map one page below the stack and record the gap up to the old
bottom.  A mapping that cannot be recorded is taken back. -/
def MemorySet.tryGrowStack (addr : VirtAddr) (code : PageFaultErrorCode) (s : MmState σ) :
    Except MapFault Bool × MemorySet × MmState σ :=
  match ms.growthPage addr code with
  | none => (.ok false, ms, s)
  | some (page, bottom) =>
    let flags : PageTableFlags := .PRESENT ||| .WRITABLE ||| .USER_ACCESSIBLE
    match A.allocateFrame s.alloc with
    | (none, a) => (.error (.err .FrameAllocationFailed), ms, { s with alloc := a })
    | (some phys, a) =>
      let s := { s with alloc := a }
      if s.physOffset.isNone then (.error (.err .InvalidAccess), ms, s)
      else
        match mapPageInner A ms.p4Phys page phys flags (s.zeroFrame phys) with
        | (.error e, s) => (.error e, ms, s)
        | (.ok (), s) =>
          match ms.insertArea (.new page bottom flags) with
          | (.error _, ms) =>
            (.error (.err .InvalidAccess), ms, unmapAndFree A ms.p4Phys s page)
          | (.ok (), ms) => (.ok true, { ms with stackBottom := some page }, s)

/-- `handle_page_fault`: map a zeroed frame where an area allows it, or grow the stack. -/
def MemorySet.handlePageFault (addr : VirtAddr) (code : PageFaultErrorCode) (s : MmState σ) :
    Except MapFault Unit × MemorySet × MmState σ :=
  if code.protectionViolation then (.error (.err .InvalidAccess), ms, s)
  else
    match findContaining ms.vma.root addr.asU64 with
    | none =>
      match ms.tryGrowStack A addr code s with
      | (.error e, ms, s) => (.error e, ms, s)
      | (.ok true, ms, s) => (.ok (), ms, s)
      | (.ok false, ms, s) => (.error (.err .InvalidAccess), ms, s)
    | some area =>
      if faultForbidden area.flags code then (.error (.err .InvalidAccess), ms, s)
      else
        match A.allocateFrame s.alloc with
        | (none, a) => (.error (.err .FrameAllocationFailed), ms, { s with alloc := a })
        | (some phys, a) =>
          let s := { s with alloc := a }
          if s.physOffset.isNone then (.error (.err .InvalidAccess), ms, s)
          else
            let (r, s) := mapPageInner A ms.p4Phys (addr.alignDown 4096) phys
              (area.flags ||| .PRESENT) (s.zeroFrame phys)
            (r, ms, s)

/-! ## Fork -/

/-- The loop of `fork` over the pages of all areas: a fresh frame each, with the bytes
the parent has there. -/
def forkPages (parent : MemorySet) (p4 : PhysAddr) :
    List (VirtAddr × PageTableFlags) → MmState σ → Except MmFault Unit × MmState σ
  | [], s => (.ok (), s)
  | (page, flags) :: pages, s =>
    match A.allocateFrame s.alloc with
    | (none, a) => (.error (.err .FrameAllocationFailed), { s with alloc := a })
    | (some phys, a) =>
      match mapPageInner A p4 page phys flags { s with alloc := a } with
      | (.error e, s) => (.error (e.toMm .Map), s)
      | (.ok (), s) =>
        match parent.translate s page with
        | some src => forkPages parent p4 pages (s.copyFrame src phys)
        | none => forkPages parent p4 pages (s.zeroFrame phys)

/-- `push_lazy` for a list of areas: record them without mapping anything. -/
def MemorySet.pushLazyAll : List MemoryArea → MemorySet → Except MmFault MemorySet
  | [], ms => .ok ms
  | area :: areas, ms =>
    match ms.insertArea area with
    | (.error _, _) => .error (.panic "push_lazy overlap")
    | (.ok (), ms) => pushLazyAll areas ms

/-- End an operation that was building an address space: on an error it is dropped. -/
def dropOnError {α : Type} (ms : MemorySet) (r : Except MmFault α × MmState σ) :
    Except MmFault α × MmState σ :=
  match r with
  | (.error (.err e), s) => (.error (.err e), ms.drop A s)
  | r => r

/-- A copy of an address space on frames of its own. -/
def MemorySet.fork (kernelP4 : PhysAddr) (s : MmState σ) : Except MmFault MemorySet × MmState σ :=
  match newBare A kernelP4 s with
  | (.error e, s) => (.error e, s)
  | (.ok new, s) =>
    let new := { new with
      stackBottom := ms.stackBottom, stackTop := ms.stackTop, stackLimit := ms.stackLimit }
    let areas := ms.vma.areasInOrder
    match new.pushLazyAll areas with
    | .error e => (.error e, s)
    | .ok new =>
      let pages := areas.flatMap fun a => a.pages.map (·, a.flags)
      dropOnError A new <|
        match forkPages A ms new.p4Phys pages s with
        | (.error e, s) => (.error e, s)
        | (.ok (), s) => (.ok new, s)

/-! ## Loading an ELF file -/

/-- What the loader reads of a program header. -/
structure ProgramHeader where
  isLoad : Bool
  virtualAddr : UInt64
  memSize : UInt64
  fileSize : UInt64
  offset : UInt64
  isWrite : Bool
  isExecute : Bool

/-- What the loader reads of a section header. -/
structure SectionHeader where
  name : Option String
  address : UInt64
  size : UInt64

/-- The headers of an ELF file, as the parser decodes them. -/
structure ElfFile where
  magic : List UInt8
  is64Bit : Bool
  isExecutable : Bool
  entryPoint : UInt64
  programs : List ProgramHeader
  sections : List SectionHeader

/-- The checks on the headers before anything is allocated. -/
def acceptElf (parse : List UInt8 → Option ElfFile) (elfData : List UInt8) :
    Except MmError ElfFile :=
  match parse elfData with
  | none => .error .InvalidElf
  | some elf =>
    if elf.magic ≠ [0x7f, 0x45, 0x4c, 0x46] then .error .InvalidElfMagic
    else if !elf.is64Bit then .error .Not64Bit
    else if !elf.isExecutable then .error .NotExecutable
    else .ok elf

namespace ProgramHeader

def startVa (ph : ProgramHeader) : VirtAddr := ⟨ph.virtualAddr⟩

def endVa (ph : ProgramHeader) : VirtAddr := ⟨ph.virtualAddr + ph.memSize⟩

def flags (ph : ProgramHeader) : PageTableFlags :=
  let flags : PageTableFlags := .PRESENT ||| .USER_ACCESSIBLE
  let flags := if ph.isWrite then flags ||| .WRITABLE else flags
  if !ph.isExecute then flags ||| .NO_EXECUTE else flags

def area (ph : ProgramHeader) : MemoryArea :=
  .new (ph.startVa.alignDown 4096) (ph.endVa.alignUp 4096) ph.flags

end ProgramHeader

/-- Map the pages of a segment or of the stack on zeroed frames.  The stack loop has no
check for the frame at address zero. -/
def mapZeroed (p4 : PhysAddr) (flags : PageTableFlags) (checkZero : Bool) :
    List VirtAddr → List (VirtAddr × PhysAddr) → MmState σ →
      Except MmFault (List (VirtAddr × PhysAddr)) × MmState σ
  | [], mapped, s => (.ok mapped, s)
  | page :: pages, mapped, s =>
    match A.allocateFrame s.alloc with
    | (none, a) => (.error (.err .FrameAllocationFailed), { s with alloc := a })
    | (some phys, a) =>
      let s := { s with alloc := a }
      if checkZero && phys.asU64 == 0 then
        (.error (.panic "from_elf: allocator returned paddr 0"), s)
      else
        match mapPageInner A p4 page phys flags (s.zeroFrame phys) with
        | (.error (.err _), s) => (.error (.err .MapFailed), rollback A p4 mapped s)
        | (.error (.panic msg), s) => (.error (.panic msg), s)
        | (.ok (), s) => mapZeroed p4 flags checkZero pages (mapped ++ [(page, phys)]) s

/-- One round of the copy loop: where the bytes go in their page, where they come from in
the file, how many there are, and where the next round starts. -/
structure Chunk where
  page : VirtAddr
  dstOffset : UInt64
  srcOffset : UInt64
  copyLen : UInt64
  next : VirtAddr

/-- The round of the copy loop at an address. -/
def ProgramHeader.chunk (ph : ProgramHeader) (cur : VirtAddr) : Chunk :=
  let pageStart := cur.alignDown 4096
  let pageEnd : VirtAddr := ⟨pageStart.asU64 + 4096⟩
  let chunkStart := if cur.asU64 > pageStart.asU64 then cur else pageStart
  let chunkEnd := if ph.endVa.asU64 < pageEnd.asU64 then ph.endVa else pageEnd
  let chunkLen := chunkEnd.asU64 - chunkStart.asU64
  let segmentOffset := chunkStart.asU64 - ph.startVa.asU64
  { page := pageStart
    dstOffset := chunkStart.asU64 - pageStart.asU64
    srcOffset := ph.offset + segmentOffset
    copyLen :=
      if segmentOffset < ph.fileSize then
        if segmentOffset + chunkLen > ph.fileSize then ph.fileSize - segmentOffset else chunkLen
      else 0
    next := chunkEnd }

/-- The copy loop of a segment, for at most `fuel` rounds.  A page that does not
translate ends it. -/
def copySegment (p4 : PhysAddr) (elfData : List UInt8) (ph : ProgramHeader) :
    Nat → VirtAddr → MmState σ → Except MmFault Unit × MmState σ
  | 0, _, s => (.error .stuck, s)
  | fuel + 1, cur, s =>
    if cur.asU64 < ph.endVa.asU64 then
      let c := ph.chunk cur
      match OffsetMapper.translate s.tables p4 c.page with
      | none => (.error (.err .TranslationFailed), s)
      | some phys =>
        let bytes := (elfData.drop c.srcOffset.toNat).take c.copyLen.toNat
        copySegment p4 elfData ph fuel c.next (s.storeBytes phys c.dstOffset.toNat bytes)
    else (.ok (), s)

/-- More rounds than the address space has pages. -/
def copyFuel : Nat := 2 ^ 53

/-- Load one segment: map its pages, copy its bytes, record its area. -/
def MemorySet.loadSegment (elfData : List UInt8) (ph : ProgramHeader) (s : MmState σ) :
    Except MmFault Unit × MemorySet × MmState σ :=
  match mapZeroed A ms.p4Phys ph.flags true ph.area.pages [] s with
  | (.error e, s) => (.error e, ms, s)
  | (.ok mapped, s) =>
    match copySegment ms.p4Phys elfData ph copyFuel ph.startVa s with
    | (.error (.err e), s) => (.error (.err e), ms, rollback A ms.p4Phys mapped s)
    | (.error e, s) => (.error e, ms, s)
    | (.ok (), s) =>
      match ms.insertArea ph.area with
      | (.error _, ms) => (.error (.err .AreaOverlap), ms, rollback A ms.p4Phys mapped s)
      | (.ok (), ms) => (.ok (), ms, s)

/-- Load the segments of type `Load`. -/
def MemorySet.loadSegments (elfData : List UInt8) :
    List ProgramHeader → MemorySet → MmState σ → Except MmFault Unit × MemorySet × MmState σ
  | [], ms, s => (.ok (), ms, s)
  | ph :: phs, ms, s =>
    if ph.isLoad then
      match ms.loadSegment A elfData ph s with
      | (.error e, ms, s) => (.error e, ms, s)
      | (.ok (), ms, s) => loadSegments elfData phs ms s
    else loadSegments elfData phs ms s

def stackTopVa : VirtAddr := ⟨0x00007ffffffff000⟩

def stackBottomVa : VirtAddr := ⟨0x00007ffffffbf000⟩

/-- `STACK_MAX_SIZE`. -/
def stackMaxSize : UInt64 := 8 * 1024 * 1024

/-- The area of the initial stack. -/
def stackArea : MemoryArea :=
  .new stackBottomVa stackTopVa (.PRESENT ||| .WRITABLE ||| .USER_ACCESSIBLE)

/-- Map the initial stack and record its bounds. -/
def MemorySet.loadStack (s : MmState σ) : Except MmFault Unit × MemorySet × MmState σ :=
  match mapZeroed A ms.p4Phys stackArea.flags false (pagesBetween stackBottomVa stackTopVa) [] s with
  | (.error e, s) => (.error e, ms, s)
  | (.ok mapped, s) =>
    match ms.insertArea stackArea with
    | (.error _, ms) => (.error (.err .AreaOverlap), ms, rollback A ms.p4Phys mapped s)
    | (.ok (), ms) =>
      -- The subtraction does not saturate: the stack is far above `STACK_MAX_SIZE`.
      let limit : VirtAddr := ⟨max (stackTopVa.asU64 - stackMaxSize) 0x1000⟩
      (.ok (), { ms with stackTop := some stackTopVa, stackBottom := some stackBottomVa,
                         stackLimit := some limit }, s)

/-- The initial heap: the section `.heap`, or an empty heap after the last segment. -/
def ElfFile.heap (elf : ElfFile) : UInt64 × UInt64 :=
  let fallback :=
    let loads := elf.programs.filter (·.isLoad)
    let maxEnd := loads.foldl (fun m ph => max m ph.endVa.asU64) 0
    let base := (VirtAddr.alignUp ⟨maxEnd⟩ 4096).asU64
    (base, base)
  match elf.sections.find? (·.name == some ".heap") with
  | none => fallback
  | some sec => if sec.address + sec.size = 0 then fallback else (sec.address, sec.address + sec.size)

/-- A loaded program: its address space, entry point, stack top and heap. -/
structure LoadedElf where
  memorySet : MemorySet
  entryPoint : UInt64
  stackTop : UInt64
  heapStart : UInt64
  heapEnd : UInt64

/-- Load a program.  `parse` is the ELF parser. -/
def MemorySet.fromElf (kernelP4 : PhysAddr) (parse : List UInt8 → Option ElfFile)
    (elfData : List UInt8) (s : MmState σ) : Except MmFault LoadedElf × MmState σ :=
  match acceptElf parse elfData with
  | .error e => (.error (.err e), s)
  | .ok elf =>
    match newBare A kernelP4 s with
    | (.error e, s) => (.error e, s)
    | (.ok ms, s) =>
      match loadSegments A elfData elf.programs ms s with
      | (.error e, ms, s) => dropOnError A ms (.error e, s)
      | (.ok (), ms, s) =>
        match ms.loadStack A s with
        | (.error e, ms, s) => dropOnError A ms (.error e, s)
        | (.ok (), ms, s) =>
          let (heapStart, heapEnd) := elf.heap
          (.ok ⟨ms, elf.entryPoint, stackTopVa.asU64, heapStart, heapEnd⟩, s)

end Operations

end BoruixKernel
