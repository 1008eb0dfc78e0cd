import BoruixKernel.Mm.MapperRefinement
import BoruixKernel.Mm.VmaInsert
import BoruixKernel.Syscall.Memory

/-!
# The life of an address space

A history of one address space: it is created by `new_bare`, `from_elf` or `fork`,
operations follow, and it is dropped.  `LeakFree` says what the history should leave
behind: every frame that was allocated has been deallocated as often, and the reverse
map does not mention the P4.

A table counts itself (see `Mm.MapperCounts`), so `unmap_page` never frees one and
every history that maps a page leaks.  `Life.leakFree` is what remains: a history
leaks nothing if none of its operations gets a frame.  `onePage_leaks` is the smallest
leak.
-/

namespace BoruixKernel

open List UInt64

/-! ## The log of the allocator -/

inductive FrameEvent where
  | allocated (p : PhysAddr)
  | deallocated (p : PhysAddr)
deriving DecidableEq, Repr

/-- An allocator that keeps a log of the frames it hands out and takes back. -/
def FrameAllocator.logged {σ : Type} (A : FrameAllocator σ) :
    FrameAllocator (σ × List FrameEvent) where
  allocateFrame a :=
    match A.allocateFrame a.1 with
    | (none, a') => (none, a', a.2)
    | (some p, a') => (some p, a', a.2 ++ [.allocated p])
  deallocateFrame a p := (A.deallocateFrame a.1 p, a.2 ++ [.deallocated p])
  held a := A.held a.1
  totalFrames := A.totalFrames
  allocate_some := by
    intro a a' p h
    split at h
    next => cases h
    next halloc =>
      cases h
      exact A.allocate_some halloc
  allocate_none := by
    intro a a' h
    split at h
    next halloc =>
      cases h
      exact A.allocate_none halloc
    next => cases h
  deallocate a p := A.deallocate a.1 p

/-- Every frame that was allocated has been deallocated as often. -/
def Returned (log : List FrameEvent) : Prop :=
  ∀ p, .allocated p ∈ log → log.count (.deallocated p) = log.count (.allocated p)

/-- What a history should leave behind.  The first frame it allocates is the P4. -/
structure LeakFree {σ : Type} (s : MmState (σ × List FrameEvent)) : Prop where
  frames : Returned s.alloc.2
  rmap : ∀ p4, s.alloc.2.head? = some (.allocated p4) →
    ∀ f, ∀ e ∈ rmapLookup s.rmap f, e.p4Phys ≠ p4

/-! ## Histories -/

inductive Creation where
  | newBare
  | fromElf (parse : List UInt8 → Option ElfFile) (elfData : List UInt8)
  | fork (parent : MemorySet)

inductive SpaceOp where
  | push (area : MemoryArea) (data : Option (List UInt8))
  | mapUserRange (start «end» : VirtAddr) (flags : PageTableFlags)
  | handlePageFault (addr : VirtAddr) (code : PageFaultErrorCode)
  | sbrk (heap : HeapBounds) (increment : Int64)

section Histories

variable {σ : Type} (A : FrameAllocator σ)

def Creation.run (kernelP4 : PhysAddr) (s : MmState σ) :
    Creation → Except MmFault MemorySet × MmState σ
  | newBare => MemorySet.newBare A kernelP4 s
  | fromElf parse elfData =>
    let (r, s) := MemorySet.fromElf A kernelP4 parse elfData s
    (r.map (·.memorySet), s)
  | fork parent => parent.fork A kernelP4 s

/-- An operation that returned, with a value or an error; `none` is a panic. -/
def returned {α : Type} (r : Except MapFault α × MemorySet × MmState σ) :
    Option (MemorySet × MmState σ) :=
  match r with
  | (.error (.panic _), _) => none
  | (_, p) => some p

def SpaceOp.run (ms : MemorySet) (s : MmState σ) : SpaceOp → Option (MemorySet × MmState σ)
  | push area data => returned (ms.push A area data s)
  | mapUserRange start «end» flags => returned (ms.mapUserRange A start «end» flags s)
  | handlePageFault addr code => returned (ms.handlePageFault A addr code s)
  | sbrk heap increment =>
    let (r, _, p) := sysSbrk A ms heap increment s
    returned (r, p)

/-- An operation and where it was performed. -/
structure SpaceEvent (σ : Type) where
  space : MemorySet
  before : MmState σ
  op : SpaceOp

/-- A sequence of operations that all returned. -/
inductive SpaceRun (ms₀ : MemorySet) (s₀ : MmState σ) :
    List (SpaceEvent σ) → MemorySet → MmState σ → Prop where
  | nil : SpaceRun ms₀ s₀ [] ms₀ s₀
  | snoc {h ms s op ms' s'} : SpaceRun ms₀ s₀ h ms s → SpaceOp.run A ms s op = some (ms', s') →
      SpaceRun ms₀ s₀ (h ++ [⟨ms, s, op⟩]) ms' s'

/-- A whole history: a creation that failed, or a creation, operations and `Drop`. -/
inductive Life (kernelP4 : PhysAddr) (s₀ : MmState σ) (c : Creation) :
    List (SpaceEvent σ) → MmState σ → Prop where
  | failed {e s} : c.run A kernelP4 s₀ = (.error (.err e), s) → Life kernelP4 s₀ c [] s
  | dropped {ms s₁ h ms' s₂} : c.run A kernelP4 s₀ = (.ok ms, s₁) → SpaceRun A ms s₁ h ms' s₂ →
      Life kernelP4 s₀ c h (ms'.drop A s₂)

end Histories

/-! ## When no operation gets a frame -/

def UserEnd : Nat := 2 ^ 47

/-- The area ends in the user half. -/
def MemoryArea.UserHalf (a : MemoryArea) : Prop := a.end.asU64.toNat ≤ UserEnd

/-- All addresses a creation works on are in the user half. -/
def Creation.UserHalf : Creation → Prop
  | newBare => True
  | fromElf parse elfData => ∀ elf, acceptElf parse elfData = .ok elf →
      ∀ ph ∈ elf.programs, ph.isLoad = true → ph.virtualAddr.toNat + ph.memSize.toNat ≤ UserEnd
  | fork parent => ∀ a ∈ areas parent.vma.root, a.UserHalf

/-- All addresses an operation works on are in the user half. -/
def SpaceOp.UserHalf : SpaceOp → Prop
  | push area _ => area.UserHalf
  | mapUserRange _ «end» _ => «end».asU64.toNat ≤ UserEnd
  | handlePageFault addr _ => addr.asU64.toNat < UserEnd
  | sbrk heap _ => heap.heapEnd.toNat ≤ UserEnd ∧ heap.heapMax.toNat ≤ UserEnd

/-- Whether a page fault comes to the point where a frame is asked for. -/
def MemorySet.faultAsks (ms : MemorySet) (addr : VirtAddr) (code : PageFaultErrorCode) : Bool :=
  !code.protectionViolation &&
    match findContaining ms.vma.root addr.asU64 with
    | none => (ms.growthPage addr code).isSome
    | some area => !faultForbidden area.flags code

/-- Whether an operation asks for a frame, in an address space with no user page mapped. -/
def SpaceOp.asks (ms : MemorySet) : SpaceOp → Bool
  | push area _ => !area.pages.isEmpty
  | mapUserRange start «end» flags =>
    start.asU64 < «end».asU64 && !(MemoryArea.new start «end» flags).pages.isEmpty
  | handlePageFault addr code => ms.faultAsks addr code
  | sbrk heap increment =>
    let newEnd := heap.newEnd increment
    increment > 0 && heap.heapStart ≤ newEnd && newEnd ≤ heap.heapMax &&
      (VirtAddr.alignUp ⟨heap.heapEnd⟩ 4096).asU64 < (VirtAddr.alignUp ⟨newEnd⟩ 4096).asU64

/-- An operation that asks for a frame finds that the allocator has none. -/
def SpaceEvent.Starved {σ : Type} (A : FrameAllocator σ) (e : SpaceEvent σ) : Prop :=
  e.op.asks e.space = true → (A.allocateFrame e.before.alloc).1 = none

/-- A creation that asks for more frames than the P4 finds that the allocator has none. -/
def Creation.Starved {σ : Type} (A : FrameAllocator σ) (s : MmState σ) : Creation → Prop
  | newBare => True
  | fromElf .. | fork _ => ∀ p4 a, A.allocateFrame s.alloc = (some p4, a) →
      (A.allocateFrame a).1 = none

/-! ## Pages of the user half -/

variable {v start page stop : VirtAddr} {a : MemoryArea}

/-- The table index of a user address is in the lower half of the P4. -/
theorem VirtAddr.p4Index_lt (h : v.asU64.toNat < UserEnd) : v.p4Index.val < 256 := by
  have hval := v.tableIndex_val 39 (by decide)
  simp only [UInt64.reduceToNat] at hval
  rw [p4Index, hval]
  unfold UserEnd at h
  omega

/-- Rounding up to a page wraps around at the end of the address space. -/
theorem VirtAddr.toNat_alignUp (v : VirtAddr) :
    (v.alignUp 4096).asU64.toNat = (v.asU64.toNat + 4095) % 2 ^ 64 / 4096 * 4096 := by
  have hmask : (v.alignUp 4096).asU64.toNat = (v.asU64 + 4096 - 1).toNat / 4096 * 4096 :=
    toNat_and_not_mask (k := 12) (by decide)
  have hadd : (v.asU64 + 4096 - 1).toNat = (v.asU64.toNat + 4095) % 2 ^ 64 := by
    rw [UInt64.toNat_sub, UInt64.toNat_add]
    simp only [UInt64.reduceToNat]
    omega
  rw [hmask, hadd]

theorem VirtAddr.toNat_alignUp_page (h : v.asU64.toNat ≤ UserEnd) :
    (v.alignUp 4096).asU64.toNat = (v.asU64.toNat + 4095) / 4096 * 4096 := by
  unfold UserEnd at h
  rw [toNat_alignUp]
  omega

theorem VirtAddr.alignUp_le_userEnd (h : v.asU64.toNat ≤ UserEnd) :
    (v.alignUp 4096).asU64.toNat ≤ UserEnd := by
  rw [toNat_alignUp_page h]
  unfold UserEnd at h ⊢
  omega

theorem toNat_page (hk : k < (stop.asU64.toNat - start.asU64.toNat + 4095) / 4096) :
    (start.asU64 + 4096 * UInt64.ofNat k).toNat = start.asU64.toNat + 4096 * k := by
  have hstop := stop.asU64.toNat_lt
  have hmul : (4096 * UInt64.ofNat k).toNat = 4096 * k := by
    rw [UInt64.toNat_mul, UInt64.toNat_ofNat']
    simp only [UInt64.reduceToNat]
    omega
  rw [UInt64.toNat_add, hmul]
  omega

/-- The pages of a range start at its start, 4096 bytes apart. -/
theorem mem_pagesBetween_iff : page ∈ pagesBetween start stop ↔
    ∃ k, page.asU64.toNat = start.asU64.toNat + 4096 * k ∧ page.asU64.toNat < stop.asU64.toNat := by
  rw [pagesBetween, mem_map]
  refine exists_congr fun k => ?_
  rw [mem_range]
  constructor
  · rintro ⟨hk, rfl⟩
    rw [toNat_page hk]
    omega
  · rintro ⟨hpage, hlt⟩
    have hk : k < (stop.asU64.toNat - start.asU64.toNat + 4095) / 4096 := by omega
    exact ⟨hk, VirtAddr.ext (UInt64.toNat_inj.mp ((toNat_page hk).trans hpage.symm))⟩

/-- The pages of a range lie in the range. -/
theorem mem_pagesBetween (h : page ∈ pagesBetween start stop) :
    start.asU64.toNat ≤ page.asU64.toNat ∧ page.asU64.toNat < stop.asU64.toNat := by
  obtain ⟨k, hk, hlt⟩ := mem_pagesBetween_iff.mp h
  omega

theorem pagesBetween_eq_nil : pagesBetween start stop = [] ↔ stop.asU64.toNat ≤ start.asU64.toNat := by
  rw [pagesBetween, map_eq_nil_iff, range_eq_nil]
  omega

/-- A page of a user area has its entry in the lower half of the P4. -/
theorem MemoryArea.UserHalf.p4Index_lt (ha : a.UserHalf) (h : page ∈ a.pages) : page.p4Index.val < 256 := by
  exact VirtAddr.p4Index_lt ((mem_pagesBetween h).2.trans_le (VirtAddr.alignUp_le_userEnd ha))

/-- A user area without a page is empty. -/
theorem MemoryArea.UserHalf.end_le (ha : a.UserHalf) (h : a.pages = []) :
    a.end.asU64 ≤ a.start.asU64 := by
  rw [MemoryArea.pages, pagesBetween_eq_nil, VirtAddr.toNat_alignUp_page ha,
    VirtAddr.toNat_alignDown_page] at h
  rw [le_iff_toNat_le]
  omega

/-- An empty area is rejected, and the tree stays as it is. -/
theorem MemorySet.insertArea_empty (ms : MemorySet) (h : a.end.asU64 ≤ a.start.asU64) :
    ms.insertArea a = (.error .InvalidAccess, ms) := by
  have hr : ms.vma.insertArea a = (.error .InvalidAccess, ms.vma) := if_pos h
  simp [insertArea, hr]

/-! ## Steps that get no frame -/

section Blank

variable {σ : Type} {A : FrameAllocator σ} {p4 kernelP4 : PhysAddr} {ms ms' : MemorySet}
  {s s' s₀ : MmState (σ × List FrameEvent)}

/-- The state of an address space that never got a frame: the lower half of its P4 is
empty, and the P4 is the only frame in the log. -/
structure Blank (s₀ : MmState (σ × List FrameEvent)) (p4 : PhysAddr) (ms : MemorySet)
    (s : MmState (σ × List FrameEvent)) : Prop where
  space : ms.p4Phys = p4
  frame : p4.Frame
  areas : ∀ a ∈ areas ms.vma.root, a.UserHalf
  lower : ∀ i : Fin 512, i.val < 256 → s.tables p4 i = .new
  log : s.alloc.2 = [.allocated p4]
  rmap : s.rmap = s₀.rmap
  offset : s.physOffset.isSome

theorem Blank.offset_isNone (h : Blank s₀ p4 ms s) : s.physOffset.isNone = false := by
  rw [Option.isNone_eq_false_iff]
  exact h.offset

/-- A failed allocation leaves no trace in the log. -/
theorem logged_allocate_none {a : σ × List FrameEvent} (h : (A.logged.allocateFrame a).1 = none) :
    ∃ a', A.logged.allocateFrame a = (none, a') ∧ a'.2 = a.2 := by
  rcases hA : A.allocateFrame a.1 with ⟨_ | p, a'⟩
  · exact ⟨(a', a.2), by simp [FrameAllocator.logged, hA], rfl⟩
  · simp [FrameAllocator.logged, hA] at h

section

variable (h : Blank s₀ p4 ms s)

include h

theorem Blank.with_alloc {a : σ × List FrameEvent} (ha : a.2 = s.alloc.2) :
    Blank s₀ p4 ms { s with alloc := a } :=
  ⟨h.space, h.frame, h.areas, h.lower, ha.trans h.log, h.rmap, h.offset⟩

/-- No user page is mapped. -/
theorem Blank.unmapPageInner (hp : page.p4Index.val < 256) :
    unmapPageInner B ms.p4Phys page s = (.error (.err .PageNotMapped), s) := by
  rw [h.space]
  simp [BoruixKernel.unmapPageInner, h.lower _ hp]

/-- Dropping the address space frees the P4 and nothing else. -/
theorem Blank.drop : ms.drop A.logged s = s.release A.logged p4 := by
  have hpages : ∀ pages : List VirtAddr, (∀ page ∈ pages, page.p4Index.val < 256) →
      pages.foldl (unmapAndFree A.logged ms.p4Phys) s = s := by
    intro pages hp
    induction pages with
    | nil => rfl
    | cons page pages ih =>
      rw [foldl_cons, unmapAndFree, h.unmapPageInner (hp page (by simp))]
      exact ih fun q hq => hp q (mem_cons_of_mem _ hq)
  rw [MemorySet.drop, h.offset_isNone]
  simp only [Bool.false_eq_true, if_false]
  rw [hpages, h.space, if_pos h.frame.isAligned]
  intro page hpage
  obtain ⟨a, ha, hpa⟩ := mem_flatMap.mp hpage
  rw [VmaTree.areasInOrder_eq] at ha
  exact (h.areas a ha).p4Index_lt hpa

/-- A history that ends with the drop of such an address space has leaked nothing. -/
theorem Blank.drop_leakFree (hrmap : ∀ f, ∀ e ∈ rmapLookup s₀.rmap f, e.p4Phys ≠ p4) :
    LeakFree (ms.drop A.logged s) := by
  have hlog : (s.release A.logged p4).alloc.2 = [.allocated p4, .deallocated p4] := by
    simp [MmState.release, FrameAllocator.logged, h.log]
  rw [h.drop]
  refine ⟨fun p hp => ?_, fun q hq => ?_⟩
  · rw [hlog] at hp ⊢
    obtain rfl : p = p4 := by simpa using hp
    simp
  · rw [hlog] at hq
    cases hq
    change ∀ f, ∀ e ∈ rmapLookup s.rmap f, _
    rw [h.rmap]
    exact hrmap

/-! ## The operations -/

theorem Blank.push (hu : area.UserHalf)
    (hst : area.pages.isEmpty = false → (A.logged.allocateFrame s.alloc).1 = none)
    (hrun : returned (ms.push A.logged area data s) = some (ms', s')) : Blank s₀ p4 ms' s' := by
  rw [MemorySet.push, h.offset_isNone] at hrun
  simp only [Bool.false_eq_true, if_false] at hrun
  cases hpages : area.pages with
  | nil =>
    rw [hpages] at hrun
    simp only [pushPages, ms.insertArea_empty (hu.end_le hpages)] at hrun
    cases hrun
    exact h
  | cons page pages =>
    obtain ⟨a, halloc, hlog⟩ := logged_allocate_none (hst (by rw [hpages]; rfl))
    rw [hpages] at hrun
    simp only [pushPages, halloc] at hrun
    cases hrun
    exact h.with_alloc hlog

theorem Blank.mapUserRange (hu : stop.asU64.toNat ≤ UserEnd)
    (hst : start.asU64 < stop.asU64 → (A.logged.allocateFrame s.alloc).1 = none)
    (hrun : returned (ms.mapUserRange A.logged start stop flags s) = some (ms', s')) :
    Blank s₀ p4 ms' s' := by
  unfold MemorySet.mapUserRange at hrun
  split at hrun
  next =>
    cases hrun
    exact h
  next hlt =>
    have hua : (MemoryArea.new start stop flags).UserHalf := hu
    exact h.push hua (fun _ => hst (lt_of_not_ge hlt)) hrun

theorem Blank.handlePageFault
    (hst : ms.faultAsks addr code = true → (A.logged.allocateFrame s.alloc).1 = none)
    (hrun : returned (ms.handlePageFault A.logged addr code s) = some (ms', s')) :
    Blank s₀ p4 ms' s' := by
  unfold MemorySet.handlePageFault at hrun
  unfold MemorySet.faultAsks at hst
  cases hviolation : code.protectionViolation with
  | true =>
    simp only [hviolation, if_true] at hrun
    cases hrun
    exact h
  | false =>
    simp only [hviolation, Bool.false_eq_true, if_false, Bool.not_false, Bool.true_and] at hrun hst
    cases harea : findContaining ms.vma.root addr.asU64 with
    | some area =>
      simp only [harea] at hrun hst
      split at hrun
      next =>
        cases hrun
        exact h
      next hallowed =>
        obtain ⟨a, halloc, hlog⟩ := logged_allocate_none (hst (by simpa using hallowed))
        simp only [halloc] at hrun
        cases hrun
        exact h.with_alloc hlog
    | none =>
      simp only [harea, MemorySet.tryGrowStack] at hrun hst
      cases hgrow : ms.growthPage addr code with
      | none =>
        simp only [hgrow] at hrun
        cases hrun
        exact h
      | some growth =>
        obtain ⟨a, halloc, hlog⟩ := logged_allocate_none (hst (by rw [hgrow]; rfl))
        simp only [hgrow, halloc] at hrun
        cases hrun
        exact h.with_alloc hlog

/-- Growing the heap maps a range; shrinking it stops at the first page. -/
theorem Blank.sbrk (hu : SpaceOp.UserHalf (.sbrk heap increment))
    (hst : SpaceOp.asks ms (.sbrk heap increment) = true →
      (A.logged.allocateFrame s.alloc).1 = none)
    (hrun : SpaceOp.run A.logged ms s (.sbrk heap increment) = some (ms', s')) :
    Blank s₀ p4 ms' s' := by
  obtain ⟨hend, hmax⟩ := hu
  simp only [SpaceOp.run, sysSbrk] at hrun
  split at hrun
  next =>
    cases hrun
    exact h
  split at hrun
  next =>
    cases hrun
    exact h
  next hbounds =>
    simp only [Bool.or_eq_true, decide_eq_true_eq, not_or, not_lt] at hbounds
    split at hrun
    next hpos =>
      split at hrun
      next hlt =>
        have hnew : (VirtAddr.alignUp ⟨heap.newEnd increment⟩ 4096).asU64.toNat ≤ UserEnd :=
          VirtAddr.alignUp_le_userEnd ((le_iff_toNat_le.mp hbounds.2).trans hmax)
        rcases hmap : ms.mapUserRange A.logged (.alignUp ⟨heap.heapEnd⟩ 4096)
          (.alignUp ⟨heap.newEnd increment⟩ 4096) heapFlags s with ⟨(e | msg) | v, ms1, s1⟩
        all_goals
          rw [hmap] at hrun
          cases hrun
        all_goals
          refine h.mapUserRange hnew (fun _ => hst ?_) (by rw [hmap]; rfl)
          simp only [SpaceOp.asks, Bool.and_eq_true, decide_eq_true_eq]
          exact ⟨⟨⟨hpos, hbounds.1⟩, hbounds.2⟩, hlt⟩
      next =>
        cases hrun
        exact h
    next =>
      split at hrun
      next hlt =>
        have hold := VirtAddr.alignUp_le_userEnd (v := ⟨heap.heapEnd⟩) hend
        rw [gt_iff_lt, lt_iff_toNat_lt] at hlt
        simp only [h.offset_isNone, Bool.false_eq_true, if_false] at hrun
        cases hpages : pagesBetween (.alignUp ⟨heap.newEnd increment⟩ 4096)
            (.alignUp ⟨heap.heapEnd⟩ 4096) with
        | nil =>
          rw [pagesBetween_eq_nil] at hpages
          omega
        | cons page pages =>
          have hmem : page ∈ pagesBetween (.alignUp ⟨heap.newEnd increment⟩ 4096)
              (.alignUp ⟨heap.heapEnd⟩ 4096) := by
            rw [hpages]
            exact mem_cons_self
          have hpage := (mem_pagesBetween hmem).2
          rw [hpages] at hrun
          simp only [sbrkUnmap,
            h.unmapPageInner (VirtAddr.p4Index_lt (hpage.trans_le hold)), reverse_nil,
            sbrkRemap, MapResult.andThen] at hrun
          cases hrun
          exact h
      next =>
        cases hrun
        exact h

/-- One operation that gets no frame. -/
theorem Blank.step (hu : op.UserHalf) (hst : SpaceEvent.Starved A.logged ⟨ms, s, op⟩)
    (hrun : SpaceOp.run A.logged ms s op = some (ms', s')) : Blank s₀ p4 ms' s' := by
  cases op with
  | push area data => exact h.push hu (fun hne => hst (by simp [SpaceOp.asks, hne])) hrun
  | mapUserRange start stop flags =>
    refine h.mapUserRange hu (fun hlt => hst ?_) hrun
    have hua : (MemoryArea.new start stop flags).UserHalf := hu
    have hne : (MemoryArea.new start stop flags).pages ≠ [] := fun hnil =>
      absurd (hua.end_le hnil) (not_le.mpr hlt)
    simp [SpaceOp.asks, hlt, hne]
  | handlePageFault addr code => exact h.handlePageFault hst hrun
  | sbrk heap increment => exact h.sbrk hu hst hrun

end

/-- Any number of them. -/
theorem SpaceRun.blank {h : List (SpaceEvent (σ × List FrameEvent))}
    (hrun : SpaceRun A.logged ms s h ms' s') (h0 : Blank s₀ p4 ms s)
    (hh : ∀ e ∈ h, e.Starved A.logged ∧ e.op.UserHalf) : Blank s₀ p4 ms' s' := by
  induction hrun with
  | nil => exact h0
  | snoc _ hstep ih =>
    obtain ⟨hst, hu⟩ := hh _ (mem_append_right _ (mem_singleton.mpr rfl))
    exact (ih fun e he => hh e (mem_append_left _ he)).step hu hst hstep

/-! ## The creations -/

/-- What the rest of the system looks like when a history starts. -/
structure SystemStart (A : FrameAllocator σ) (s : MmState (σ × List FrameEvent)) : Prop where
  log : s.alloc.2 = []
  offset : s.physOffset.isSome
  rmap : ∀ f, ∀ e ∈ rmapLookup s.rmap f, e.p4Phys ∈ A.held s.alloc.1

variable {r : Except MmFault MemorySet} {e : MmFault} {elfData : List UInt8}

/-- `new_bare` takes one frame, or fails without one. -/
theorem newBare_blank (h0 : SystemStart A s₀) (hrun : MemorySet.newBare A.logged kernelP4 s₀ = (r, s)) :
    (∃ msg, r = .error (.panic msg)) ∨
      (r = .error (.err .FrameAllocationFailed) ∧ s.alloc.2 = []) ∨
      ∃ ms p4 a, r = .ok ms ∧ A.logged.allocateFrame s₀.alloc = (some p4, a) ∧ s.alloc = a ∧
        Blank s₀ p4 ms s ∧ (∀ f, ∀ e ∈ rmapLookup s₀.rmap f, e.p4Phys ≠ p4) := by
  obtain ⟨off, hoff⟩ := Option.isSome_iff_exists.mp h0.offset
  unfold MemorySet.newBare at hrun
  rcases halloc : A.logged.allocateFrame s₀.alloc with ⟨_ | p4, a⟩
  · obtain ⟨a', ha', hlog⟩ := logged_allocate_none (A := A) (a := s₀.alloc) (by rw [halloc])
    rw [halloc] at ha' hrun
    cases ha'
    cases hrun
    exact .inr (.inl ⟨rfl, hlog.trans h0.log⟩)
  · rw [halloc] at hrun
    simp only [hoff] at hrun
    split at hrun
    next =>
      cases hrun
      exact .inl ⟨_, rfl⟩
    next =>
      cases hrun
      obtain ⟨hframe, -, hfresh, -⟩ := A.logged.allocate_some halloc
      have hlog : a.2 = [.allocated p4] := by
        rcases hA : A.allocateFrame s₀.alloc.1 with ⟨_ | p, a'⟩
        · simp [FrameAllocator.logged, hA] at halloc
        · simp only [FrameAllocator.logged, hA, Prod.mk.injEq, Option.some.injEq] at halloc
          obtain ⟨rfl, rfl⟩ := halloc
          simp [h0.log]
      refine .inr (.inr ⟨_, p4, a, rfl, rfl, rfl, ⟨rfl, hframe, ?_, ?_, hlog, rfl, ?_⟩, ?_⟩)
      · simp [VmaTree.new]
      · intro i hi
        have hle : ¬ 256 ≤ i.val := by omega
        simp [MmState.zeroFrame, hle, PageTable.zero]
      · rfl
      · rintro f e he rfl
        exact hfresh (h0.rmap f e he)

/-- Recording areas of the user half. -/
theorem Blank.pushLazyAll (h : Blank s₀ p4 ms s) (has : ∀ a ∈ as, a.UserHalf)
    (hrun : MemorySet.pushLazyAll as ms = .ok ms') :
    Blank s₀ p4 ms' s := by
  induction as generalizing ms with
  | nil =>
    cases hrun
    exact h
  | cons area as ih =>
    rw [MemorySet.pushLazyAll] at hrun
    split at hrun
    next => cases hrun
    next ms1 hins =>
      refine ih ?_ (fun a ha => has a (mem_cons_of_mem _ ha)) hrun
      obtain rfl : (ms.insertArea area).2 = ms1 := by rw [hins]
      refine ⟨h.space, h.frame, fun a ha => ?_, h.lower, h.log, h.rmap, h.offset⟩
      obtain ⟨b, hb, hend⟩ := ms.vma_good.insertArea_ends area (congrArg Prod.fst hins) ha
      rw [MemoryArea.UserHalf, hend]
      rcases mem_cons.mp hb with rfl | hb
      · exact has _ mem_cons_self
      · exact h.areas b hb

/-- What a creation leaves: an address space without a frame, or no leak. -/
def CreatedBlank (s₀ : MmState (σ × List FrameEvent)) (r : Except MmFault MemorySet)
    (s : MmState (σ × List FrameEvent)) : Prop :=
  (∀ e, r = .error (.err e) → LeakFree s) ∧
    ∀ ms, r = .ok ms → ∃ p4, Blank s₀ p4 ms s ∧
      ∀ f, ∀ e ∈ rmapLookup s₀.rmap f, e.p4Phys ≠ p4

theorem LeakFree.of_log_nil (h : s.alloc.2 = []) : LeakFree s := by
  constructor
  · intro p hp
    rw [h] at hp
    cases hp
  · intro p4 hp4
    rw [h] at hp4
    cases hp4

/-- A creation stops where `new_bare` does. -/
theorem createdBlank_of_newBare (h0 : SystemStart A s₀)
    (hrun : MemorySet.newBare A.logged kernelP4 s₀ = (.error e, s)) :
    CreatedBlank s₀ (.error e) s := by
  rcases newBare_blank h0 hrun with ⟨msg, h⟩ | ⟨h, hlog⟩ | ⟨ms, p4, a, h, -⟩
  · cases h
    exact ⟨by simp, by simp⟩
  · exact ⟨fun _ _ => .of_log_nil hlog, by simp⟩
  · cases h

/-- Building stops with an error: the address space is dropped. -/
theorem Blank.dropOnError (h : Blank s₀ p4 ms s)
    (hrmap : ∀ f, ∀ e ∈ rmapLookup s₀.rmap f, e.p4Phys ≠ p4) {α : Type} {e : MmError}
    {r : Except MmFault α}
    (hrun : BoruixKernel.dropOnError A.logged ms (.error (.err e), s) = (r, s')) :
    r = .error (.err e) ∧ LeakFree s' := by
  cases hrun
  exact ⟨rfl, h.drop_leakFree hrmap⟩

theorem pushLazyAll_error (h : MemorySet.pushLazyAll as ms = .error e) : ∃ msg, e = .panic msg := by
  induction as generalizing ms with
  | nil => cases h
  | cons area as ih =>
    rw [MemorySet.pushLazyAll] at h
    split at h
    next =>
      cases h
      exact ⟨_, rfl⟩
    next => exact ih h

/-- `fork` finds no frame for its first page, or there is no page to copy. -/
theorem fork_blank (h0 : SystemStart A s₀) {parent : MemorySet}
    (hu : ∀ a ∈ areas parent.vma.root, a.UserHalf)
    (hst : ∀ p4 a, A.logged.allocateFrame s₀.alloc = (some p4, a) →
      (A.logged.allocateFrame a).1 = none) (hrun : parent.fork A.logged kernelP4 s₀ = (r, s)) :
    CreatedBlank s₀ r s := by
  unfold MemorySet.fork at hrun
  rcases hnew : MemorySet.newBare A.logged kernelP4 s₀ with ⟨e | ms, s1⟩
  · rw [hnew] at hrun
    cases hrun
    exact createdBlank_of_newBare h0 hnew
  rcases newBare_blank h0 hnew with ⟨_, h⟩ | ⟨h, -⟩ | ⟨_, p4, a, h, halloc, ha, hb, hr⟩ <;> cases h
  have hb' : Blank s₀ p4 { ms with
      stackBottom := parent.stackBottom, stackTop := parent.stackTop,
      stackLimit := parent.stackLimit } s1 :=
    ⟨hb.space, hb.frame, hb.areas, hb.lower, hb.log, hb.rmap, hb.offset⟩
  simp only [hnew] at hrun
  split at hrun
  next e he =>
    obtain ⟨msg, rfl⟩ := pushLazyAll_error he
    cases hrun
    exact ⟨by simp, by simp⟩
  next new hlazy =>
    have hbnew := hb'.pushLazyAll (by rwa [VmaTree.areasInOrder_eq]) hlazy
    cases hpages : parent.vma.areasInOrder.flatMap fun a => a.pages.map (·, a.flags) with
    | nil =>
      rw [hpages] at hrun
      cases hrun
      refine ⟨by simp, ?_⟩
      rintro _ ⟨⟩
      exact ⟨p4, hbnew, hr⟩
    | cons page pages =>
      obtain ⟨a', ha', hlog⟩ := logged_allocate_none (hst p4 a halloc)
      rw [hpages] at hrun
      simp only [forkPages, ha, ha'] at hrun
      obtain ⟨rfl, hfree⟩ := (hbnew.with_alloc (hlog.trans (by rw [ha]))).dropOnError hr hrun
      exact ⟨fun _ _ => hfree, by simp⟩

/-- `from_elf` finds no frame for its first page, or the segment has no page and is
rejected. -/
theorem Blank.loadSegments (h : Blank s₀ p4 ms s) (hst : (A.logged.allocateFrame s.alloc).1 = none)
    {phs : List ProgramHeader}
    (hu : ∀ ph ∈ phs, ph.isLoad = true → ph.virtualAddr.toNat + ph.memSize.toNat ≤ UserEnd)
    {r : Except MmFault Unit} (hrun : MemorySet.loadSegments A.logged elfData phs ms s = (r, ms', s')) :
    Blank s₀ p4 ms' s' ∧ (r = .ok () ∧ s' = s ∨ ∃ e, r = .error (.err e)) := by
  induction phs with
  | nil =>
    cases hrun
    exact ⟨h, .inl ⟨rfl, rfl⟩⟩
  | cons ph phs ih =>
    rw [MemorySet.loadSegments] at hrun
    split at hrun
    next hload =>
      have hend : ph.endVa.asU64.toNat = ph.virtualAddr.toNat + ph.memSize.toNat := by
        have := hu ph mem_cons_self hload
        unfold UserEnd at this
        rw [ProgramHeader.endVa, UInt64.toNat_add]
        omega
      have hua : ph.endVa.asU64.toNat ≤ UserEnd := hend ▸ hu ph mem_cons_self hload
      cases hpages : ph.area.pages with
      | nil =>
        -- No page: the segment is empty, so its area is rejected.
        have harea : ph.area.UserHalf := VirtAddr.alignUp_le_userEnd hua
        have hempty := harea.end_le hpages
        have hdone : ¬ ph.startVa.asU64 < ph.endVa.asU64 := by
          have hup := VirtAddr.toNat_alignUp_page hua
          have hdown := ph.startVa.toNat_alignDown_page
          have hle : (ph.endVa.alignUp 4096).asU64.toNat ≤ (ph.startVa.alignDown 4096).asU64.toNat :=
            le_iff_toNat_le.mp hempty
          rw [lt_iff_toNat_lt]
          omega
        have hcopy : copySegment ms.p4Phys elfData ph copyFuel ph.startVa s = (.ok (), s) := by
          rw [show copyFuel = (2 ^ 53 - 1) + 1 by decide, copySegment, if_neg hdone]
        simp only [MemorySet.loadSegment, hpages, mapZeroed, hcopy, ms.insertArea_empty hempty,
          rollback, reverse_nil, foldl_nil] at hrun
        cases hrun
        exact ⟨h, .inr ⟨_, rfl⟩⟩
      | cons page pages =>
        obtain ⟨a, halloc, hlog⟩ := logged_allocate_none hst
        simp only [MemorySet.loadSegment, hpages, mapZeroed, halloc] at hrun
        cases hrun
        exact ⟨h.with_alloc hlog, .inr ⟨_, rfl⟩⟩
    next => exact ih (fun ph hph => hu ph (mem_cons_of_mem _ hph)) hrun

/-- `from_elf` never gets to its end without a frame. -/
theorem fromElf_blank (h0 : SystemStart A s₀) {parse : List UInt8 → Option ElfFile}
    (hu : (Creation.fromElf parse elfData).UserHalf)
    (hst : ∀ p4 a, A.logged.allocateFrame s₀.alloc = (some p4, a) →
      (A.logged.allocateFrame a).1 = none) {r : Except MmFault LoadedElf}
    (hrun : MemorySet.fromElf A.logged kernelP4 parse elfData s₀ = (r, s)) :
    CreatedBlank s₀ (r.map (·.memorySet)) s := by
  unfold MemorySet.fromElf at hrun
  cases hacc : acceptElf parse elfData with
  | error e =>
    rw [hacc] at hrun
    cases hrun
    exact ⟨fun _ _ => .of_log_nil h0.log, by simp [Except.map]⟩
  | ok elf =>
    simp only [hacc] at hrun
    rcases hnew : MemorySet.newBare A.logged kernelP4 s₀ with ⟨e | ms, s1⟩
    · rw [hnew] at hrun
      cases hrun
      exact createdBlank_of_newBare h0 hnew
    rcases newBare_blank h0 hnew with ⟨_, h⟩ | ⟨h, -⟩ | ⟨_, p4, a, h, halloc, ha, hb, hr⟩ <;>
      cases h
    have hnone : (A.logged.allocateFrame s1.alloc).1 = none := ha ▸ hst p4 a halloc
    simp only [hnew] at hrun
    rcases hseg : MemorySet.loadSegments A.logged elfData elf.programs ms s1 with ⟨rseg, ms2, s2⟩
    obtain ⟨hb2, ⟨rfl, rfl⟩ | ⟨e, rfl⟩⟩ := hb.loadSegments hnone (hu elf hacc) hseg
    · obtain ⟨a', ha', hlog⟩ := logged_allocate_none hnone
      have hstack : pagesBetween stackBottomVa stackTopVa =
          stackBottomVa :: (pagesBetween stackBottomVa stackTopVa).tail := by decide +kernel
      rw [hseg] at hrun
      simp only [MemorySet.loadStack] at hrun
      rw [hstack] at hrun
      simp only [mapZeroed, ha'] at hrun
      obtain ⟨rfl, hfree⟩ := (hb2.with_alloc hlog).dropOnError hr hrun
      exact ⟨fun _ _ => hfree, by simp [Except.map]⟩
    · rw [hseg] at hrun
      obtain ⟨rfl, hfree⟩ := hb2.dropOnError hr hrun
      exact ⟨fun _ _ => hfree, by simp [Except.map]⟩

end Blank

/-! ## The smallest leak -/

/-- A kernel whose own P4 is frame 1, with one entry for the direct map. -/
def kernelStart (next : Nat) (h : 1 < next) : MmState (BumpState × List FrameEvent) where
  physOffset := some 0xffff800000000000
  tables p i := if p = .ofPfn 1 ∧ i.val = 256 then .pack (.ofPfn 1) .PRESENT else .new
  counts := some ⟨fun _ => 0, 1024⟩
  rmap := ∅
  alloc := (⟨next, [.ofPfn 1], by
    intro p hp
    obtain rfl := mem_singleton.mp hp
    exact h⟩, [])

theorem kernelStart_systemStart (next : Nat) (h : 1 < next) :
    SystemStart bumpAllocator (kernelStart next h) where
  log := rfl
  offset := rfl
  rmap f e he := by
    simp [kernelStart, rmapLookup] at he

/-- The bare address space on the next frame. -/
def bareSet (next : Nat) : MemorySet :=
  ⟨.ofPfn next, .new, none, none, none, VmaTree.Good.new⟩

/-- The state after its creation. -/
def bareState (next : Nat) (h : 1 < next) : MmState (BumpState × List FrameEvent) :=
  (Creation.run bumpAllocator.logged (.ofPfn 1) (kernelStart next h) .newBare).2

def mapOnePage : SpaceOp :=
  .mapUserRange ⟨0x400000⟩ ⟨0x401000⟩ (.WRITABLE ||| .USER_ACCESSIBLE)

/-- Map one page in the bare address space. -/
def mappedOnePage (next : Nat) (h : 1 < next) :
    Option (MemorySet × MmState (BumpState × List FrameEvent)) :=
  SpaceOp.run bumpAllocator.logged (bareSet next) (bareState next h) mapOnePage

/-- The history that creates an address space, maps one page and drops it. -/
theorem onePage_life {next : Nat} {h : 1 < next}
    (hnew : (Creation.run bumpAllocator.logged (.ofPfn 1) (kernelStart next h) .newBare).1 =
      .ok (bareSet next)) (hmap : (mappedOnePage next h).isSome) :
    Life bumpAllocator.logged (.ofPfn 1) (kernelStart next h) .newBare
      [⟨bareSet next, bareState next h, mapOnePage⟩]
      (((mappedOnePage next h).get hmap).1.drop bumpAllocator.logged
        ((mappedOnePage next h).get hmap).2) :=
  .dropped (Prod.ext hnew rfl) (.snoc .nil (Option.some_get hmap).symm)

end BoruixKernel
