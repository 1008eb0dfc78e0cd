import Mathlib

/-!
# The physical frame allocator

A buddy allocator with sharded global free lists, per-CPU caches, a reserve of single
pages and memory that has not been initialised yet.  All its lists are linked through
the metadata of the frames (`BuddyFrame`), and one `state` tag in the metadata says
whether a block is free in a global list, free in a cache, or neither.

Frames are named by their number (`pfn`).  Numbers are natural numbers: the machine
words of the source hold frame numbers and byte addresses of a memory map, which do
not wrap; the counter of calls does.  An order is below 19, so its 8-bit field loses
nothing.  A metadata block
that does not exist reads as `BuddyFrame.new`.  Each call is one step, so locks are
left out, and so are the statistics that no decision reads.
-/

namespace BoruixKernel

open Function

def MAX_ORDER : Nat := 19

def SHARD_COUNT : Nat := 8

def MAX_CPUS : Nat := 64

/-- The number of frames whose metadata share a block: 4096 bytes hold 102 of 40. -/
def framesPerBlock : Nat := 102

def reserveTarget : Nat := 32

/-- Where a block is, as far as its metadata tells. -/
inductive FrameState where
  | Allocated
  | FreeGlobal
  | FreePerCpu
deriving DecidableEq, Repr

structure BuddyFrame where
  order : Nat
  state : FrameState
  /-- The flag `BF_MIGRATABLE`. -/
  migratable : Bool
  next : Option Nat
  prev : Option Nat
deriving DecidableEq, Repr

/-- The metadata of a frame that was never touched. -/
def BuddyFrame.new : BuddyFrame := ⟨0, .Allocated, true, none, none⟩

/-- The metadata of the first frame of a block that is in no list. -/
def BuddyFrame.detached (order : Nat) : BuddyFrame := ⟨order, .Allocated, true, none, none⟩

/-- Memory that has not been handed to the buddy system yet. -/
structure UninitRegion where
  startPfn : Nat
  endPfn : Nat
deriving DecidableEq, Repr

/-- The cache of one CPU: a list for each order, and its length. -/
structure PerCpuCache where
  heads : Nat → Option Nat
  counts : Nat → Nat

structure Pmm where
  totalFrames : Nat
  /-- Which metadata blocks exist. -/
  metadata : Nat → Bool
  frames : Nat → BuddyFrame
  /-- The heads of the free lists, by order and shard. -/
  lists : Nat → Nat → Option Nat
  caches : Nat → PerCpuCache
  reserveHead : Option Nat
  reserveCount : Nat
  regions : List (Option UninitRegion)
  lastUninitIdx : Nat
  allocatedFrames : Nat
  allocCalls : Nat
  compactLastAllocCall : Nat

namespace Pmm

variable (p : Pmm)

def modifyFrame (pfn : Nat) (f : BuddyFrame → BuddyFrame) : Pmm :=
  { p with frames := update p.frames pfn (f (p.frames pfn)) }

def setList (order shard : Nat) (head : Option Nat) : Pmm :=
  { p with lists := update p.lists order (update (p.lists order) shard head) }

def setCache (cpu order : Nat) (head : Option Nat) (count : Nat) : Pmm :=
  let cache : PerCpuCache :=
    ⟨update (p.caches cpu).heads order head,
      update (p.caches cpu).counts order count⟩
  { p with caches := update p.caches cpu cache }

/-! ## Global lists -/

def shardForPfn (pfn : Nat) : Nat := pfn % SHARD_COUNT

def shardForCpu (cpu : Nat) : Nat := cpu % SHARD_COUNT

/-- Unlink a block from a free list. -/
def removeFromListWithList (pfn order shard : Nat) : Pmm :=
  let prevIdx := (p.frames pfn).prev
  let nextIdx := (p.frames pfn).next
  let p := p.modifyFrame pfn fun f => { f with next := none, prev := none }
  let p := match prevIdx with
    | some prev => p.modifyFrame prev fun f => { f with next := nextIdx }
    | none => p.setList order shard nextIdx
  match nextIdx with
    | some next => p.modifyFrame next fun f => { f with prev := prevIdx }
    | none => p

/-- Take the first block of the first list that has one. -/
def popShards (p : Pmm) (order : Nat) : List Nat → Option Nat × Pmm
  | [] => (none, p)
  | shard :: shards =>
    match p.lists order shard with
    | some idx =>
      let p := p.removeFromListWithList idx order shard
      (some idx, p.modifyFrame idx fun f =>
        { f with state := .Allocated, migratable := true, next := none, prev := none })
    | none => p.popShards order shards

/-- Take a block of an order, starting at the shard of the CPU. -/
def popFromGlobal (order cpu : Nat) : Option Nat × Pmm :=
  p.popShards order ((List.range SHARD_COUNT).map fun offset =>
    (shardForCpu cpu + offset) % SHARD_COUNT)

/-- Put a block at the head of its list. -/
def pushToGlobal (pfn order : Nat) : Pmm :=
  let shard := shardForPfn pfn
  let head := p.lists order shard
  let p := p.modifyFrame pfn fun _ => ⟨order, .FreeGlobal, true, head, none⟩
  let p := match head with
    | some headIdx => p.modifyFrame headIdx fun f => { f with prev := some pfn }
    | none => p
  p.setList order shard (some pfn)

/-- Free the upper halves of a block that is too large: orders `order + n - 1` down to
`order`. -/
def splitDown (idx order : Nat) : Nat → Pmm → Pmm
  | 0, p => p
  | n + 1, p =>
    let j := order + n
    let buddyIdx := idx + 2 ^ j
    let p := p.modifyFrame buddyIdx fun _ => .detached j
    splitDown idx order n (p.pushToGlobal buddyIdx j)

/-- Take a block of a larger order and split it. -/
def allocFromHigher (p : Pmm) (order cpu : Nat) : List Nat → Option Nat × Pmm
  | [] => (none, p)
  | higher :: rest =>
    match p.popFromGlobal higher cpu with
    | (some idx, p) =>
      let p := splitDown idx order (higher - order) p
      (some idx, p.modifyFrame idx fun _ => .detached order)
    | (none, p) => p.allocFromHigher order cpu rest

/-- Take a block from the global lists. -/
def allocFromList (order cpu : Nat) : Option Nat × Pmm :=
  match p.popFromGlobal order cpu with
  | (some idx, p) => (some idx, p)
  | (none, p) =>
    p.allocFromHigher order cpu ((List.range (MAX_ORDER - (order + 1))).map (order + 1 + ·))

/-- The loop of `free_and_merge`: merge a block with its buddy as long as the buddy is a
free block of the same order, then put it in its list. -/
def freeAndMerge (p : Pmm) (pfn order : Nat) : Pmm :=
  if _h : order < MAX_ORDER - 1 then
    let buddyPfn := pfn ^^^ 2 ^ order
    if buddyPfn ≥ p.totalFrames then p.pushToGlobal pfn order
    else
      let buddy := p.frames buddyPfn
      if buddy.state ≠ .FreeGlobal ∨ buddy.order ≠ order then p.pushToGlobal pfn order
      else
        let p := p.removeFromListWithList buddyPfn order (shardForPfn buddyPfn)
        let p := p.modifyFrame buddyPfn fun f =>
          { f with state := .Allocated, migratable := true, next := none, prev := none }
        p.freeAndMerge (if buddyPfn < pfn then buddyPfn else pfn) (order + 1)
  else p.pushToGlobal pfn order
termination_by MAX_ORDER - 1 - order

/-! ## Memory not initialised yet -/

/-- The number of trailing zero bits of a machine word. -/
def trailingZeros (n : Nat) : Nat :=
  if _h : n = 0 then 64
  else if n % 2 = 1 then 0
  else trailingZeros (n / 2) + 1
termination_by n
decreasing_by omega

/-- The order of the block the gap loop frees next. -/
def gapOrder (cursor alignedStart : Nat) : Nat :=
  min (min (Nat.log 2 (alignedStart - cursor)) (MAX_ORDER - 1)) (trailingZeros cursor)

/-- Free the frames between the start of a region and the first aligned frame. -/
def freeGap (p : Pmm) (cursor alignedStart : Nat) : Pmm :=
  if _h : cursor < alignedStart then
    let orderGap := gapOrder cursor alignedStart
    let p := p.modifyFrame cursor fun _ => .detached orderGap
    (p.freeAndMerge cursor orderGap).freeGap (cursor + 2 ^ orderGap) alignedStart
  else p
termination_by alignedStart - cursor
decreasing_by
  have := Nat.two_pow_pos (gapOrder cursor alignedStart)
  omega

/-- Round up to a multiple of `size`. -/
def alignFrame (pfn size : Nat) : Nat := (pfn + size - 1) / size * size

/-- Take a block from one of the regions with the given indices. -/
def allocFromRegions (p : Pmm) (order : Nat) : List Nat → Option Nat × Pmm
  | [] => (none, p)
  | i :: rest =>
    let size := 2 ^ order
    match p.regions.getD i none with
    | some region =>
      let alignedStart := alignFrame region.startPfn size
      if alignedStart + size ≤ region.endPfn then
        let p := p.freeGap region.startPfn alignedStart
        let region' :=
          if alignedStart + size = region.endPfn then none
          else some { region with startPfn := alignedStart + size }
        (some alignedStart, { p with regions := p.regions.set i region', lastUninitIdx := i })
      else p.allocFromRegions order rest
    | none => p.allocFromRegions order rest

/-- Take a block from the regions, starting at the one used last. -/
def allocFromUninit (order : Nat) : Option Nat × Pmm :=
  let len := p.regions.length
  p.allocFromRegions order ((List.range len).map fun offset => (p.lastUninitIdx + offset) % len)

/-- Take a block from the global lists, or else from the regions. -/
def allocGlobal (order cpu : Nat) : Option Nat × Pmm :=
  match p.allocFromList order cpu with
  | (some idx, p) => (some idx, p)
  | (none, p) =>
    match p.allocFromUninit order with
    | (some idx, p) => (some idx, p.modifyFrame idx fun _ => .detached order)
    | (none, p) => (none, p)

/-! ## Caches -/

def perCpuLimit (order : Nat) : Nat :=
  if order ≤ 1 then 64
  else if order ≤ 4 then 32
  else if order ≤ 8 then 16
  else if order ≤ 12 then 8
  else if order ≤ 16 then 4
  else 2

def perCpuBatch (order : Nat) : Nat := min (perCpuLimit order) 8

/-- Take the first block of a cache list. -/
def percpuPopRaw (cpu order : Nat) : Option Nat × Pmm :=
  let cpu := cpu % MAX_CPUS
  let cache := p.caches cpu
  match cache.heads order with
  | some head =>
    let p := p.setCache cpu order (p.frames head).next (cache.counts order - 1)
    (some head, p.modifyFrame head fun f =>
      { f with next := none, prev := none, state := .Allocated, migratable := true })
  | none => (none, p)

/-- Put a block at the head of a cache list.  The count is a saturating 16-bit word. -/
def percpuPushRaw (cpu pfn order : Nat) : Pmm :=
  let cpu := cpu % MAX_CPUS
  let cache := p.caches cpu
  let p := p.modifyFrame pfn fun _ => ⟨order, .FreePerCpu, true, cache.heads order, none⟩
  p.setCache cpu order (some pfn) (min (cache.counts order + 1) 65535)

/-- Move blocks from a cache to the global lists. -/
def drainCache (cpu order : Nat) : Nat → Pmm → Pmm
  | 0, p => p
  | n + 1, p =>
    match p.percpuPopRaw cpu order with
    | (some drained, p) => drainCache cpu order n (p.freeAndMerge drained order)
    | (none, p) => p

/-- Put a block in a cache, and move what is over the limit to the global lists. -/
def percpuPush (cpu pfn order : Nat) : Pmm :=
  let p := p.percpuPushRaw cpu pfn order
  drainCache cpu order ((p.caches (cpu % MAX_CPUS)).counts order - perCpuLimit order) p

/-- All cache lists, in the order `drain_percpu_all` visits them. -/
@[irreducible] def cacheSlots : List (Nat × Nat) :=
  (List.range MAX_CPUS).flatMap fun cpu => (List.range MAX_ORDER).map (cpu, ·)

/-- Empty all caches.  A list has at most as many blocks as there are frames. -/
def drainPercpuAll : Pmm :=
  cacheSlots.foldl (fun p (cpu, order) => drainCache cpu order p.totalFrames p) p

/-- The loop of `percpu_refill`: the first block is handed out, the others are cached. -/
def refillLoop (cpu order : Nat) : Nat → Option Nat → Pmm → Option Nat × Pmm
  | 0, first, p => (first, p)
  | n + 1, first, p =>
    match p.allocGlobal order cpu with
    | (some pfn, p) =>
      match first with
      | none => refillLoop cpu order n (some pfn) p
      | some first => refillLoop cpu order n (some first) (p.percpuPushRaw cpu pfn order)
    | (none, p) => (first, p)

/-- Take a batch of blocks from the global lists. -/
def percpuRefill (cpu order : Nat) : Option Nat × Pmm :=
  refillLoop cpu order (perCpuBatch order) none p

/-! ## Reserve -/

/-- Take a page from the reserve. -/
def reservePop : Option Nat × Pmm :=
  match p.reserveHead with
  | some head =>
    let p := { p with reserveHead := (p.frames head).next, reserveCount := p.reserveCount - 1 }
    (some head, p.modifyFrame head fun f =>
      { f with next := none, prev := none, state := .Allocated, migratable := true })
  | none => (none, p)

/-- Put a page in the reserve.  Its tag is that of an allocated page. -/
def reservePush (pfn : Nat) : Pmm :=
  let p := p.modifyFrame pfn fun _ => ⟨0, .Allocated, true, p.reserveHead, none⟩
  { p with reserveHead := some pfn, reserveCount := p.reserveCount + 1 }

/-- Fill the reserve with up to `n` pages. -/
def initReserve : Nat → Pmm → Pmm
  | 0, p => p
  | n + 1, p =>
    match p.allocGlobal 0 0 with
    | (some pfn, p) => initReserve n (p.reservePush pfn)
    | (none, p) => p

/-! ## Compaction -/

/-- The number of blocks of a list, followed for at most `fuel` steps. -/
def listLength (p : Pmm) : Nat → Option Nat → Nat
  | 0, _ => 0
  | _ + 1, none => 0
  | fuel + 1, some pfn => p.listLength fuel (p.frames pfn).next + 1

/-- The number of free blocks of an order, in the global lists and in the caches. -/
def freeBlocks (order : Nat) : Nat :=
  ((List.range SHARD_COUNT).map fun shard =>
      p.listLength p.totalFrames (p.lists order shard)).sum +
    ((List.range MAX_CPUS).map fun cpu => (p.caches cpu).counts order).sum

def maxFreeOrder : Nat :=
  ((List.range MAX_ORDER).reverse.find? fun order => 0 < p.freeBlocks order).getD 0

/-- Empty the caches into the global lists. -/
def compact : Pmm := p.drainPercpuAll

/-! ## Calls -/

/-- `current_cpu_id`: an id out of range is taken as 0. -/
def currentCpuId (raw : Nat) : Nat := if raw ≥ MAX_CPUS then 0 else raw

/-- What a call of `allocate` returns.  A frame whose address does not fit 52 bits panics
in the constructor of the address. -/
inductive AllocResult where
  | frame (pfn : Nat)
  | none
  | panic
deriving DecidableEq, Repr

def handOut (idx order : Nat) : AllocResult × Pmm :=
  let p := { p with allocatedFrames := p.allocatedFrames + 2 ^ order }
  if idx * 4096 < 2 ^ 52 then (.frame idx, p) else (.panic, p)

/-- The four places a block is looked for, one after the other. -/
def findBlock (order cpu : Nat) : Option Nat × Pmm :=
  match p.percpuPopRaw cpu order with
  | (some idx, p) => (some idx, p)
  | (none, p) =>
    match p.percpuRefill cpu order with
    | (some idx, p) => (some idx, p)
    | (none, p) =>
      match p.allocGlobal order cpu with
      | (some idx, p) => (some idx, p)
      | (none, p) => if order = 0 then p.reservePop else (none, p)

/-- The second attempt of `allocate`. -/
def retryGlobal (order cpu : Nat) : AllocResult × Pmm :=
  match p.allocGlobal order cpu with
  | (some idx, p) => p.handOut idx order
  | (none, p) => (.none, p)

/-- `allocate`.  A failed request for more than a page compacts memory, but not more often
than every 1024 calls. -/
def allocate (rawCpu order : Nat) : AllocResult × Pmm :=
  if order ≥ MAX_ORDER then (.none, p)
  else
    let p := { p with allocCalls := (p.allocCalls + 1) % 2 ^ 64 }
    let cpu := currentCpuId rawCpu
    match p.findBlock order cpu with
    | (some idx, p) => p.handOut idx order
    | (none, p) =>
      if order > 0 ∧ p.allocCalls - p.compactLastAllocCall ≥ 1024 ∧ p.maxFreeOrder < order then
        { p with compactLastAllocCall := p.allocCalls }.compact.retryGlobal order cpu
      else (.none, p)

def fetchSub (a b : Nat) : Nat := if b ≤ a then a - b else a + 2 ^ 64 - b

/-- `deallocate`.  A frame without metadata, or one whose tag says it is free, is
rejected. -/
def deallocate (rawCpu pfn : Nat) : Pmm :=
  if pfn ≥ p.totalFrames then p
  else if !p.metadata (pfn / framesPerBlock) then p
  else if (p.frames pfn).state ≠ .Allocated then p
  else
    let order := (p.frames pfn).order
    let p :=
      if order = 0 ∧ p.reserveCount < reserveTarget then p.reservePush pfn
      else p.percpuPush (currentCpuId rawCpu) pfn order
    { p with allocatedFrames := fetchSub p.allocatedFrames (2 ^ order) }

end Pmm

end BoruixKernel
