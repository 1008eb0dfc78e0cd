import BoruixKernel.Mm.UserRange

/-!
# The heap of a task

Runs of `sys_sbrk` calls of one task, with stores of the task between them.  `CallOk` says
what a call should do.  It holds of every call in a run in which no call gives pages back,
and the pages a call asks for are neither mapped nor recorded (`HeapRun.callOk_iff`).  A
call that gives pages back unmaps them and leaves their area.
-/

namespace BoruixKernel

open List UInt64 MemorySet Int64

/-! ## The new break -/

namespace HeapBounds

theorem toNat_toUInt64 (a : Int64) : (a.toUInt64.toNat : Int) = a.toInt % 2 ^ 64 := by
  have hmod : a.toInt % ((2 ^ 64 : Nat) : Int) = (a.toBitVec.toNat : Int) % ((2 ^ 64 : Nat) : Int) := by
    rw [Int64.toInt, BitVec.toInt_eq_toNat_bmod]
    exact Int.bmod_emod
  have heq : a.toUInt64.toNat = a.toBitVec.toNat := rfl
  omega

/-- The negation wraps to the right value, also on the least integer. -/
theorem toNat_neg {a : Int64} (h : a.toInt ≤ 0) : ((-a).toUInt64.toNat : Int) = -a.toInt := by
  have hmod : (-a).toInt % ((2 ^ 64 : Nat) : Int) = (-a.toInt) % ((2 ^ 64 : Nat) : Int) := by
    rw [toInt_neg]
    exact Int.bmod_emod
  have hle := a.le_toInt
  rw [toNat_toUInt64]
  omega

variable {heap : HeapBounds} {increment : Int64}

/-- A break that is not saturated. -/
theorem toNat_newEnd (h : 0 ≤ heap.heapEnd.toNat + increment.toInt)
    (hlt : (heap.heapEnd.toNat + increment.toInt : Int) < 2 ^ 64) :
    ((heap.newEnd increment).toNat : Int) = heap.heapEnd.toNat + increment.toInt := by
  unfold newEnd
  split
  · next hpos =>
    rw [gt_iff_lt, lt_iff_toInt_lt, toInt_zero] at hpos
    have hinc := toNat_toUInt64 increment
    have hmax := increment.toInt_lt
    simp only
    rw [if_pos (by omega), UInt64.toNat_add]
    omega
  · next hneg =>
    rw [gt_iff_lt, lt_iff_toInt_lt, toInt_zero] at hneg
    have hdec := toNat_neg (Int.not_lt.mp hneg)
    have hle : (-increment).toUInt64 ≤ heap.heapEnd := by
      rw [le_iff_toNat_le]
      omega
    simp only
    rw [if_pos hle, UInt64.toNat_sub_of_le _ _ hle]
    omega

/-- A positive increment raises the break, unless it is saturated. -/
theorem newEnd_of_pos (hpos : 0 < increment) (hlt : (heap.newEnd increment).toNat < 2 ^ 64 - 1) :
    ((heap.newEnd increment).toNat : Int) = heap.heapEnd.toNat + increment.toInt := by
  have hpos' := hpos
  rw [lt_iff_toInt_lt, toInt_zero] at hpos'
  refine toNat_newEnd (by omega) ?_
  by_contra hge
  unfold newEnd at hlt
  have hinc := toNat_toUInt64 increment
  have hmax := increment.toInt_lt
  simp only [gt_iff_lt, hpos, if_true] at hlt
  rw [if_neg (by omega)] at hlt
  simp at hlt

/-- An increment that is not positive does not raise the break. -/
theorem newEnd_of_nonpos (hneg : ¬ 0 < increment) : (heap.newEnd increment).toNat ≤ heap.heapEnd.toNat := by
  unfold newEnd
  simp only [gt_iff_lt, hneg, if_false]
  split
  · next hle =>
    rw [UInt64.toNat_sub_of_le _ _ hle]
    omega
  · exact Nat.zero_le _

end HeapBounds

/-! ## Runs -/

/-- A task, as far as its heap is concerned. -/
structure HeapTask (σ : Type) where
  heap : HeapBounds
  space : MemorySet
  mem : MmState σ

namespace HeapTask

variable {σ : Type} (A : FrameAllocator σ)

variable (t : HeapTask σ) (increment : Int64)

/-- `sys_sbrk` of the task. -/
def sbrk : Except MapFault Int64 × HeapTask σ :=
  let r := sysSbrk A t.space t.heap increment t.mem
  (r.1, ⟨r.2.1, r.2.2.1, r.2.2.2⟩)

/-- The task stores a byte. -/
def store (w : VirtAddr × UInt8) : HeapTask σ :=
  { t with mem := t.space.writeByte t.mem w }

/-- `align_up(break)`. -/
def top : VirtAddr := VirtAddr.alignUp ⟨t.heap.heapEnd⟩ 4096

/-- `align_up` of the break a call asks for. -/
def newTop : VirtAddr :=
  VirtAddr.alignUp ⟨t.heap.newEnd increment⟩ 4096

/-- The break a call asks for. -/
def target : Int := t.heap.heapEnd.toNat + increment.toInt

/-- The check of the bounds. -/
def Accepts : Prop :=
  t.heap.heapStart ≤ t.heap.newEnd increment ∧ t.heap.newEnd increment ≤ t.heap.heapMax

/-- There are frames for the pages of a call, and for three tables a page. -/
def Enough : Prop :=
  t.Accepts increment →
    A.Supplies (4 * (pagesBetween t.top (t.newTop increment)).length) t.mem.alloc

/-- The call gives no page back, and the pages it asks for are neither mapped nor recorded. -/
structure Clear : Prop where
  keeps : t.Accepts increment → t.top.asU64 ≤ (t.newTop increment).asU64
  unmapped : t.Accepts increment → ∀ page ∈ pagesBetween t.top (t.newTop increment),
    t.space.translate t.mem page = none
  uncovered : t.Accepts increment → ∀ v, t.space.Covers v →
    ¬ (t.top.asU64 ≤ v.asU64 ∧ v.asU64 < (t.newTop increment).asU64)

end HeapTask

section Run

variable {σ : Type} (A : FrameAllocator σ)

/-- Calls of a task, each with the state before it, and stores.  There are frames enough
for every call. -/
inductive HeapRun (t₀ : HeapTask σ) : List (HeapTask σ × Int64) → HeapTask σ → Prop where
  | nil : HeapRun t₀ [] t₀
  | sbrk {h t increment} : HeapRun t₀ h t → t.Enough A increment →
      HeapRun t₀ (h ++ [(t, increment)]) (t.sbrk A increment).2
  | store {h t w} : HeapRun t₀ h t → w.1.asU64.toNat < UserEnd → HeapRun t₀ h (t.store w)

def highestBreak (h : List (HeapTask σ × Int64)) (t : HeapTask σ) : UInt64 :=
  h.foldr (fun c m => max c.1.heap.heapEnd m) t.heap.heapEnd

/-- What a call should do, after the calls `h`: `r` is its result and the task after it. -/
structure CallOk (t₀ : HeapTask σ) (h : List (HeapTask σ × Int64)) (t : HeapTask σ)
    (increment : Int64) (r : Except MapFault Int64 × HeapTask σ) : Prop where
  /-- It succeeds if the new break is in bounds. -/
  returns : t.heap.heapStart.toNat ≤ t.target increment → t.target increment ≤ t.heap.heapMax.toNat →
    r.1 = .ok t.heap.heapEnd.toInt64 ∧ (r.2.heap.heapEnd.toNat : Int) = t.target increment
  /-- The heap is mapped, writable, and recorded. -/
  mapped : ∀ v : VirtAddr, t₀.top.asU64 ≤ v.asU64 → v.asU64 < r.2.top.asU64 →
    (r.2.space.translate r.2.mem v).isSome ∧
      (∀ e ∈ walkEntries r.2.mem.tables r.2.space.p4Phys v, e.flags.contains .WRITABLE = true) ∧
      r.2.space.Covers v
  /-- Pages that were there and are there have their contents. -/
  kept : ∀ v : VirtAddr, t₀.top.asU64 ≤ v.asU64 → v.asU64 < t.top.asU64 → v.asU64 < r.2.top.asU64 →
    r.2.space.readByte r.2.mem v = t.space.readByte t.mem v
  /-- New pages read as zero. -/
  zero : ∀ v : VirtAddr, t.top.asU64 ≤ v.asU64 → v.asU64 < r.2.top.asU64 →
    r.2.space.readByte r.2.mem v = some 0
  /-- Above the heap, up to the highest break there was, nothing is mapped or recorded. -/
  above : ∀ v : VirtAddr, r.2.top.asU64 ≤ v.asU64 →
    v.asU64 < (VirtAddr.alignUp ⟨highestBreak h t⟩ 4096).asU64 →
    r.2.space.translate r.2.mem v = none ∧ ¬ r.2.space.Covers v

end Run

/-! ## What a call does -/

namespace HeapTask

variable {σ : Type} {A : FrameAllocator σ} {K P : Set PhysAddr} {t t₀ : HeapTask σ}
  {increment : Int64} {h : List (HeapTask σ × Int64)}

def moved (t : HeapTask σ) (increment : Int64) : HeapTask σ :=
  { t with heap := { t.heap with heapEnd := t.heap.newEnd increment } }

theorem sbrk_zero : t.sbrk A 0 = (.ok t.heap.heapEnd.toInt64, t) := rfl

theorem sbrk_reject (hne : increment ≠ 0) (hno : ¬ t.Accepts increment) :
    t.sbrk A increment = (.ok (-1), t) := by
  have hcheck : (t.heap.newEnd increment < t.heap.heapStart ||
      t.heap.newEnd increment > t.heap.heapMax) = true := by
    rw [Accepts, not_and_or, not_le, not_le] at hno
    simpa using hno
  rw [sbrk, sysSbrk, if_neg hne]
  simp [hcheck]

theorem Accepts.check (hok : t.Accepts increment) : (t.heap.newEnd increment < t.heap.heapStart ||
    t.heap.newEnd increment > t.heap.heapMax) = false := by
  simpa [Accepts, not_lt] using hok

/-- Calls in bounds that ask for no page and give none back. -/
theorem sbrk_still (hne : increment ≠ 0) (hok : t.Accepts increment)
    (hsame : t.newTop increment = t.top) :
    t.sbrk A increment = (.ok t.heap.heapEnd.toInt64, t.moved increment) := by
  have hsame' : VirtAddr.alignUp ⟨t.heap.newEnd increment⟩ 4096 =
      VirtAddr.alignUp ⟨t.heap.heapEnd⟩ 4096 := hsame
  rw [sbrk, sysSbrk, if_neg hne]
  simp only [hok.check, Bool.false_eq_true, if_false, hsame', gt_iff_lt, lt_irrefl, ite_self]
  rfl

/-- Calls in bounds that ask for pages. -/
theorem sbrk_grow (hpos : 0 < increment) (hok : t.Accepts increment)
    (hlt : t.top.asU64 < (t.newTop increment).asU64) :
    t.sbrk A increment =
      match t.space.mapUserRange A t.top (t.newTop increment) heapFlags t.mem with
      | (.error (.panic msg), ms, s) => (.error (.panic msg), ⟨t.heap, ms, s⟩)
      | (.error (.err _), ms, s) => (.ok (-1), ⟨t.heap, ms, s⟩)
      | (.ok (), ms, s) => (.ok t.heap.heapEnd.toInt64, ⟨(t.moved increment).heap, ms, s⟩) := by
  have hne : increment ≠ 0 := by
    rintro rfl
    exact absurd hpos (by decide)
  have hlt' : (VirtAddr.alignUp ⟨t.heap.newEnd increment⟩ 4096).asU64 >
      (VirtAddr.alignUp ⟨t.heap.heapEnd⟩ 4096).asU64 := hlt
  rw [sbrk, sysSbrk, if_neg hne]
  simp only [hok.check, Bool.false_eq_true, if_false, gt_iff_lt, hpos, if_true]
  rw [if_pos hlt']
  simp only [top, newTop, moved]
  rcases t.space.mapUserRange A _ _ heapFlags t.mem with ⟨(e | msg) | _, ms, s⟩ <;> rfl

/-- Calls that do not raise the break leave the areas. -/
theorem sbrk_space (hneg : ¬ 0 < increment) : (t.sbrk A increment).2.space = t.space := by
  simp only [sbrk, sysSbrk, gt_iff_lt, hneg, if_false]
  split
  · rfl
  split
  · rfl
  split
  · split
    · rfl
    · rcases sbrkUnmap A t.space.p4Phys _ [] t.mem with ⟨_ | _ | _, s⟩ <;> rfl
  · rfl

/-! ## The invariant -/

/-- A task whose address space is in good order, with the heap in the user half. -/
structure Ready (A : FrameAllocator σ) (K P : Set PhysAddr) (t : HeapTask σ) : Prop where
  space : SpaceOk A K P t.space t.mem
  tidy : Tidy t.space.p4Phys (t.mem.priv userHalf t.space.p4Phys).tables
  heapEnd : t.heap.heapEnd.toNat ≤ UserEnd
  heapMax : t.heap.heapMax.toNat ≤ UserEnd

/-- The heap of a task after the calls `h`, none of which gave pages back. -/
structure HeapInv (A : FrameAllocator σ) (K P : Set PhysAddr) (t₀ : HeapTask σ)
    (h : List (HeapTask σ × Int64)) (t : HeapTask σ) : Prop extends Ready A K P t where
  leaf : ∀ v : VirtAddr, t₀.top.asU64 ≤ v.asU64 → v.asU64 < t.top.asU64 → ∃ frame : PhysAddr,
    frame.Frame ∧ pageLeaf t.mem.tables t.space.p4Phys .small v =
      some (.pack frame (heapFlags ||| .PRESENT))
  covered : ∀ v : VirtAddr, t₀.top.asU64 ≤ v.asU64 → v.asU64 < t.top.asU64 → t.space.Covers v
  earlier : ∀ c ∈ h, c.1.heap.heapEnd.toNat ≤ UserEnd ∧ c.1.top.asU64 ≤ t.top.asU64
  start : t₀.top.asU64 ≤ t.top.asU64

section

variable (hr : t.Ready A K P)

include hr

theorem Ready.toNat_top : t.top.asU64.toNat = (t.heap.heapEnd.toNat + 4095) / 4096 * 4096 :=
  VirtAddr.toNat_alignUp_page hr.heapEnd

theorem Ready.top_le : t.top.asU64.toNat ≤ UserEnd := VirtAddr.alignUp_le_userEnd hr.heapEnd

theorem Ready.newEnd_le (hok : t.Accepts increment) : (t.heap.newEnd increment).toNat ≤ UserEnd :=
  (le_iff_toNat_le.mp hok.2).trans hr.heapMax

theorem Ready.toNat_newTop (hok : t.Accepts increment) :
    (t.newTop increment).asU64.toNat = ((t.heap.newEnd increment).toNat + 4095) / 4096 * 4096 :=
  VirtAddr.toNat_alignUp_page (hr.newEnd_le hok)

theorem Ready.newTop_le (hok : t.Accepts increment) : (t.newTop increment).asU64.toNat ≤ UserEnd :=
  VirtAddr.alignUp_le_userEnd (hr.newEnd_le hok)

/-- A break in bounds is accepted, and not saturated. -/
theorem Ready.accepts (hlo : t.heap.heapStart.toNat ≤ t.target increment)
    (hhi : t.target increment ≤ t.heap.heapMax.toNat) :
    t.Accepts increment ∧ ((t.heap.newEnd increment).toNat : Int) = t.target increment := by
  have hmax := hr.heapMax
  unfold UserEnd at hmax
  have heq : ((t.heap.newEnd increment).toNat : Int) = t.target increment :=
    HeapBounds.toNat_newEnd (by unfold target at hlo; omega) (by unfold target at hhi; omega)
  refine ⟨⟨?_, ?_⟩, heq⟩ <;> rw [le_iff_toNat_le] <;> omega

end

/-- In such a run the break is on the highest page it was on. -/
theorem HeapInv.highest (hi : HeapInv A K P t₀ h t) :
    (VirtAddr.alignUp ⟨highestBreak h t⟩ 4096).asU64 = t.top.asU64 := by
  have hmem : ∀ h' : List (HeapTask σ × Int64), (∀ c ∈ h', c ∈ h) →
      (highestBreak h' t).toNat ≤ UserEnd ∧ t.heap.heapEnd ≤ highestBreak h' t ∧
        (VirtAddr.alignUp ⟨highestBreak h' t⟩ 4096).asU64 ≤ t.top.asU64 := by
    intro h' hsub
    induction h' with
    | nil => exact ⟨hi.heapEnd, le_refl _, le_refl _⟩
    | cons c h' ih =>
      obtain ⟨hend, hge, htop⟩ := ih fun c hc => hsub c (mem_cons_of_mem _ hc)
      obtain ⟨hend', htop'⟩ := hi.earlier c (hsub c mem_cons_self)
      change (max c.1.heap.heapEnd (highestBreak h' t)).toNat ≤ UserEnd ∧
        t.heap.heapEnd ≤ max c.1.heap.heapEnd (highestBreak h' t) ∧
        (VirtAddr.alignUp ⟨max c.1.heap.heapEnd (highestBreak h' t)⟩ 4096).asU64 ≤ t.top.asU64
      rcases max_choice c.1.heap.heapEnd (highestBreak h' t) with heq | heq
      · have hle : highestBreak h' t ≤ c.1.heap.heapEnd := heq ▸ le_max_right _ _
        rw [heq]
        exact ⟨hend', hge.trans hle, htop'⟩
      · rw [heq]
        exact ⟨hend, hge, htop⟩
  obtain ⟨hend, hge, htop⟩ := hmem h fun _ hc => hc
  refine le_antisymm htop ?_
  rw [le_iff_toNat_le] at hge ⊢
  rw [hi.toNat_top, VirtAddr.toNat_alignUp_page (v := ⟨highestBreak h t⟩) hend]
  exact Nat.mul_le_mul_right _ (Nat.div_le_div_right (Nat.add_le_add_right hge _))

theorem heapFlags_small : heapFlags.contains .HUGE_PAGE = false := by decide

theorem heapFlags_writable : (heapFlags ||| .PRESENT).contains .WRITABLE = true := by decide

section

variable (hi : HeapInv A K P t₀ h t)

include hi

/-- The heap is mapped, writable and recorded. -/
theorem HeapInv.mapped (hlo : t₀.top.asU64 ≤ v.asU64) (hhi : v.asU64 < t.top.asU64) :
    (t.space.translate t.mem v).isSome ∧
      (∀ e ∈ walkEntries t.mem.tables t.space.p4Phys v, e.flags.contains .WRITABLE = true) ∧
      t.space.Covers v := by
  obtain ⟨frame, hframe, hleaf⟩ := hi.leaf v hlo hhi
  have hlt : v.asU64.toNat < UserEnd := (lt_iff_toNat_lt.mp hhi).trans_le hi.top_le
  refine ⟨?_, fun e he => ?_, hi.covered v hlo hhi⟩
  · rw [translate_eq_mapper hi.space.offset, translate_of_pageLeaf hleaf]
    rfl
  · rcases walkEntries_of_leaf (hi.space.spaces.each _ hi.space.space) hi.tidy (userHalf_of_lt hlt)
      hleaf e he with hlink | rfl
    · rw [hlink]
      decide
    · rw [PageTableEntry.flags_pack hframe]
      exact heapFlags_writable

/-- Nothing moves but the break, within its page. -/
theorem HeapInv.still (increment : Int64) (heap : HeapBounds) (hend : heap.heapEnd.toNat ≤ UserEnd)
    (hmax : heap.heapMax = t.heap.heapMax) (htop : (⟨heap, t.space, t.mem⟩ : HeapTask σ).top = t.top) :
    HeapInv A K P t₀ (h ++ [(t, increment)]) ⟨heap, t.space, t.mem⟩ := by
  refine ⟨⟨hi.space, hi.tidy, hend, hmax ▸ hi.heapMax⟩, ?_, ?_, fun c hc => ?_, ?_⟩
  · rw [htop]
    exact hi.leaf
  · rw [htop]
    exact hi.covered
  · rw [htop]
    rcases mem_append.mp hc with hc | hc
    · exact hi.earlier c hc
    · rw [mem_singleton.mp hc]
      exact ⟨hi.heapEnd, le_refl _⟩
  · rw [htop]
    exact hi.start

theorem HeapInv.pos_of_grow (hok : t.Accepts increment) (hlt : t.top.asU64 < (t.newTop increment).asU64) :
    0 < increment := by
  by_contra hneg
  have hle : (t.heap.newEnd increment).toNat ≤ t.heap.heapEnd.toNat := HeapBounds.newEnd_of_nonpos hneg
  rw [lt_iff_toNat_lt, hi.toNat_top, hi.toNat_newTop hok] at hlt
  omega

/-- Pages are added at the end of the heap. -/
theorem HeapInv.grow (hok : t.Accepts increment) (hlt : t.top.asU64 < (t.newTop increment).asU64)
    (hrun : t.space.mapUserRange A t.top (t.newTop increment) heapFlags t.mem = (.ok (), ms, s))
    (htidy : Tidy t.space.p4Phys (s.priv userHalf t.space.p4Phys).tables) :
    HeapInv A K P t₀ (h ++ [(t, increment)]) ⟨(t.moved increment).heap, ms, s⟩ ∧
      (∀ v : VirtAddr, t₀.top.asU64 ≤ v.asU64 → v.asU64 < t.top.asU64 →
        ms.readByte s v = t.space.readByte t.mem v) ∧
      ∀ v : VirtAddr, t.top.asU64 ≤ v.asU64 → v.asU64 < (t.newTop increment).asU64 →
        ms.readByte s v = some 0 := by
  have hstart : t.top.asU64.toNat % 4096 = 0 := by
    rw [hi.toNat_top]
    exact Nat.mul_mod_left _ _
  have haligned : (t.newTop increment).asU64.toNat % 4096 = 0 := by
    rw [hi.toNat_newTop hok]
    exact Nat.mul_mod_left _ _
  have hstop := hi.newTop_le hok
  obtain ⟨hspace, hp4, hadd, -, hcov⟩ := mapUserRange_spec hi.space hlt hstart haligned
    hstop heapFlags_small hrun
  have hread : ∀ v, ms.readByte s v = t.space.readByte s v := by
    intro v
    rw [MemorySet.readByte, MemorySet.readByte, translate_eq_mapper hspace.offset,
      translate_eq_mapper hspace.offset, hp4]
  have hin : ∀ v : VirtAddr, InPages (pagesBetween t.top (t.newTop increment)) v ↔
      t.top.asU64 ≤ v.asU64 ∧ v.asU64 < (t.newTop increment).asU64 := by
    intro v
    rw [le_iff_toNat_le, lt_iff_toNat_lt]
    exact inPages_pagesBetween hstart haligned
  have hout : ∀ v : VirtAddr, v.asU64 < t.top.asU64 →
      ¬ InPages (pagesBetween t.top (t.newTop increment)) v := fun v hv hmem =>
    absurd hv (not_lt.mpr ((hin v).mp hmem).1)
  have huser : ∀ v : VirtAddr, v.asU64 < (t.newTop increment).asU64 → v.asU64.toNat < UserEnd :=
    fun v hv => (lt_iff_toNat_lt.mp hv).trans_le hstop
  refine ⟨⟨⟨hspace, hp4 ▸ htidy, hi.newEnd_le hok, hi.heapMax⟩, fun v hlo hhi => ?_,
    fun v hlo hhi => ?_, fun c hc => ?_, ?_⟩, fun v hlo hhi => ?_, fun v hlo hhi => ?_⟩
  · rw [hp4]
    rcases UInt64.lt_or_le v.asU64 t.top.asU64 with hv | hv
    · rw [hadd.leaves v (huser v hhi) (hout v hv)]
      exact hi.leaf v hlo hv
    · exact hadd.leaf v (huser v hhi) ((hin v).mpr ⟨hv, hhi⟩)
  · rw [hcov]
    rcases UInt64.lt_or_le v.asU64 t.top.asU64 with hv | hv
    · exact .inl (hi.covered v hlo hv)
    · exact .inr ⟨hv, hhi⟩
  · rcases mem_append.mp hc with hc | hc
    · exact ⟨(hi.earlier c hc).1, (hi.earlier c hc).2.trans hlt.le⟩
    · rw [mem_singleton.mp hc]
      exact ⟨hi.heapEnd, hlt.le⟩
  · exact hi.start.trans hlt.le
  · rw [hread, hadd.bytes v (huser v (lt_trans hhi hlt)) (hout v hhi)]
  · rw [hread, hadd.zero v (huser v hhi) ((hin v).mpr ⟨hlo, hhi⟩)]

/-- What is left of `CallOk` when the invariant is known. -/
theorem HeapInv.callOk (hi' : HeapInv A K P t₀ (h ++ [(t, increment)]) r.2)
    (hreturns : t.heap.heapStart.toNat ≤ t.target increment →
      t.target increment ≤ t.heap.heapMax.toNat →
      r.1 = .ok t.heap.heapEnd.toInt64 ∧ (r.2.heap.heapEnd.toNat : Int) = t.target increment)
    (hkept : ∀ v : VirtAddr, t₀.top.asU64 ≤ v.asU64 → v.asU64 < t.top.asU64 →
      r.2.space.readByte r.2.mem v = t.space.readByte t.mem v)
    (hzero : ∀ v : VirtAddr, t.top.asU64 ≤ v.asU64 → v.asU64 < r.2.top.asU64 →
      r.2.space.readByte r.2.mem v = some 0) : CallOk t₀ h t increment r := by
  refine ⟨hreturns, fun v => hi'.mapped, fun v hlo hhi _ => hkept v hlo hhi, hzero,
    fun v hlo hhi => ?_⟩
  have htop := (hi'.earlier (t, increment) (mem_append_right _ (mem_singleton.mpr rfl))).2
  rw [hi.highest] at hhi
  exact absurd (lt_of_lt_of_le hhi (htop.trans hlo)) (lt_irrefl _)

/-- A call that gives no page back and asks for free pages does what it should. -/
theorem HeapInv.sbrk (hframes : t.Enough A increment) (hclear : t.Clear increment) :
    HeapInv A K P t₀ (h ++ [(t, increment)]) (t.sbrk A increment).2 ∧
      CallOk t₀ h t increment (t.sbrk A increment) := by
  have hnone : ∀ heap : HeapBounds, (⟨heap, t.space, t.mem⟩ : HeapTask σ).top = t.top →
      ∀ v : VirtAddr, t.top.asU64 ≤ v.asU64 → v.asU64 < (⟨heap, t.space, t.mem⟩ : HeapTask σ).top.asU64 →
        t.space.readByte t.mem v = some 0 := by
    intro heap htop v hlo hhi
    rw [htop] at hhi
    exact absurd hhi (not_lt.mpr hlo)
  by_cases hzero : increment = 0
  · subst hzero
    have hi' := hi.still 0 t.heap hi.heapEnd rfl rfl
    exact ⟨hi', hi.callOk hi' (fun _ _ => ⟨rfl, by simp [target, sbrk_zero]⟩) (fun _ _ _ => rfl)
      (hnone _ rfl)⟩
  by_cases hok : t.Accepts increment
  rotate_left
  · rw [sbrk_reject hzero hok]
    have hi' := hi.still increment t.heap hi.heapEnd rfl rfl
    exact ⟨hi', hi.callOk hi' (fun hlo hhi => absurd (hi.accepts hlo hhi).1 hok) (fun _ _ _ => rfl)
      (hnone _ rfl)⟩
  rcases lt_or_eq_of_le (hclear.keeps hok) with hlt | heq
  · have hpos := hi.pos_of_grow hok hlt
    obtain ⟨ms, s, hrun, htidy⟩ := mapUserRange_ok hi.space hi.tidy hlt
      (by rw [hi.toNat_top]; exact Nat.mul_mod_left _ _)
      (by rw [hi.toNat_newTop hok]; exact Nat.mul_mod_left _ _) (hi.newTop_le hok)
      heapFlags_small (hclear.unmapped hok) (hclear.uncovered hok) (hframes hok)
    rw [sbrk_grow hpos hok hlt, hrun]
    obtain ⟨hi', hkept, hzero'⟩ := hi.grow hok hlt hrun htidy
    exact ⟨hi', hi.callOk hi' (fun hlo hhi => ⟨rfl, (hi.accepts hlo hhi).2⟩) hkept hzero'⟩
  · have hsame : t.newTop increment = t.top := VirtAddr.ext heq.symm
    rw [sbrk_still hzero hok hsame]
    have hi' := hi.still increment (t.moved increment).heap (hi.newEnd_le hok) rfl hsame
    exact ⟨hi', hi.callOk hi' (fun hlo hhi => ⟨rfl, (hi.accepts hlo hhi).2⟩) (fun _ _ _ => rfl)
      (hnone _ hsame)⟩

theorem HeapInv.store (hw : w.1.asU64.toNat < UserEnd) : HeapInv A K P t₀ h (t.store w) := by
  obtain ⟨hspace, htidy, hleaves⟩ := hi.space.writeByte hw
  refine ⟨⟨hspace, htidy hi.tidy, hi.heapEnd, hi.heapMax⟩, fun v hlo hhi => ?_, hi.covered,
    hi.earlier, hi.start⟩
  obtain ⟨frame, hframe, hleaf⟩ := hi.leaf v hlo hhi
  exact ⟨frame, hframe, (hleaves _ _).trans hleaf⟩

end

/-- A call that asks for no page and gives none back is clear. -/
theorem Clear.of_newTop_eq (hsame : t.newTop increment = t.top) : t.Clear increment := by
  refine ⟨fun _ => hsame ▸ le_refl _, fun _ page hpage => ?_, fun _ v _ hv => ?_⟩
  · rw [hsame] at hpage
    have hmem := mem_pagesBetween hpage
    omega
  · rw [hsame] at hv
    exact absurd hv.2 (not_lt.mpr hv.1)

/-- A call that asks for pages and succeeds found them free. -/
theorem Ready.clear_of_grow (hr : t.Ready A K P) (hpos : 0 < increment) (hok : t.Accepts increment)
    (hlt : t.top.asU64 < (t.newTop increment).asU64)
    (hmoved : ((t.sbrk A increment).2.heap.heapEnd.toNat : Int) = t.target increment) :
    t.Clear increment := by
  have hinc := hpos
  rw [lt_iff_toInt_lt, toInt_zero] at hinc
  -- The break moves only if the range was mapped.
  have hstays : ∀ heap : HeapBounds, heap = t.heap → (heap.heapEnd.toNat : Int) ≠ t.target increment := by
    rintro _ rfl
    unfold target
    omega
  rw [sbrk_grow hpos hok hlt] at hmoved
  rcases hrun : t.space.mapUserRange A t.top (t.newTop increment) heapFlags t.mem with
    ⟨(e | msg) | _, ms, s⟩
  · rw [hrun] at hmoved
    exact absurd hmoved (hstays _ rfl)
  · rw [hrun] at hmoved
    exact absurd hmoved (hstays _ rfl)
  obtain ⟨-, -, hadd, hcov, -⟩ := mapUserRange_spec hr.space hlt
    (by rw [hr.toNat_top]; exact Nat.mul_mod_left _ _)
    (by rw [hr.toNat_newTop hok]; exact Nat.mul_mod_left _ _) (hr.newTop_le hok) heapFlags_small hrun
  exact ⟨fun _ => hlt.le, fun _ => hadd.vacant, fun _ => hcov⟩

/-- A call that does what it should gives no page back, unless it goes below the first
break, and finds the pages it asks for free. -/
theorem HeapInv.clear (hi : HeapInv A K P t₀ h t)
    (habove : t₀.heap.heapEnd.toNat ≤ t.target increment)
    (hcall : CallOk t₀ h t increment (t.sbrk A increment)) : t.Clear increment := by
  by_cases hok : t.Accepts increment
  rotate_left
  · exact ⟨fun hc => absurd hc hok, fun hc => absurd hc hok, fun hc => absurd hc hok⟩
  have hend := hi.newEnd_le hok
  have htarget : ((t.heap.newEnd increment).toNat : Int) = t.target increment := by
    by_cases hpos : 0 < increment
    · exact HeapBounds.newEnd_of_pos hpos (by unfold UserEnd at hend; omega)
    · have hneg := hpos
      rw [lt_iff_toInt_lt, toInt_zero] at hneg
      have hlt := t.heap.heapEnd.toNat_lt
      unfold target at habove ⊢
      exact HeapBounds.toNat_newEnd (by omega) (by omega)
  obtain ⟨-, hmoved⟩ := hcall.returns
    (by rw [← htarget]; exact Int.ofNat_le.mpr (le_iff_toNat_le.mp hok.1))
    (by rw [← htarget]; exact Int.ofNat_le.mpr (le_iff_toNat_le.mp hok.2))
  rcases lt_trichotomy t.top.asU64 (t.newTop increment).asU64 with hlt | heq | hgt
  · have hpos := hi.pos_of_grow hok hlt
    exact hi.clear_of_grow hpos hok hlt hmoved
  · exact .of_newTop_eq (VirtAddr.ext heq.symm)
  · -- The pages given back are covered as before.
    have hneg : ¬ 0 < increment := by
      intro hpos
      rw [lt_iff_toInt_lt, toInt_zero] at hpos
      rw [lt_iff_toNat_lt, hi.toNat_top, hi.toNat_newTop hok] at hgt
      unfold target at htarget
      omega
    have htop : (t.sbrk A increment).2.top = t.newTop increment := by
      have hbreak : (t.sbrk A increment).2.heap.heapEnd = t.heap.newEnd increment :=
        UInt64.toNat_inj.mp (by omega)
      rw [top, hbreak, newTop]
    have hfirst : t₀.top.asU64 ≤ (t.newTop increment).asU64 := by
      have hle : t₀.heap.heapEnd.toNat ≤ (t.heap.newEnd increment).toNat := by omega
      rw [le_iff_toNat_le, hi.toNat_newTop hok, top,
        VirtAddr.toNat_alignUp_page (v := ⟨t₀.heap.heapEnd⟩) (hle.trans hend)]
      exact Nat.mul_le_mul_right _ (Nat.div_le_div_right (Nat.add_le_add_right hle _))
    have hno := (hcall.above (t.newTop increment) (by rw [htop]) (by rwa [hi.highest])).2
    rw [sbrk_space hneg] at hno
    exact absurd (hi.covered _ hfirst hgt) hno

end HeapTask

/-! ## Whole runs -/

section Whole

open HeapTask

variable {A : FrameAllocator σ} {K P : Set PhysAddr} {t t₀ : HeapTask σ} {increment : Int64}
  {h : List (HeapTask σ × Int64)}

theorem HeapRun.inv (h₀ : t₀.Ready A K P) (hrun : HeapRun A t₀ h t)
    (hclear : ∀ c ∈ h, c.1.Clear c.2) : HeapInv A K P t₀ h t := by
  induction hrun with
  | nil =>
    exact ⟨h₀, fun v hlo hhi => absurd hhi (not_lt.mpr hlo),
      fun v hlo hhi => absurd hhi (not_lt.mpr hlo), fun c hc => absurd hc not_mem_nil,
      le_refl _⟩
  | sbrk _ hframes ih =>
    have hi := ih fun c hc => hclear c (mem_append_left _ hc)
    exact (hi.sbrk hframes (hclear _ (mem_append_right _ (mem_singleton.mpr rfl)))).1
  | store _ hw ih => exact (ih hclear).store hw

/-- In a run whose calls give no page back and ask for free pages, every such call does
what it should.  A call that does not, and stays above the first break, does not. -/
theorem HeapRun.callOk_iff (h₀ : t₀.Ready A K P) (hrun : HeapRun A t₀ h t)
    (hclear : ∀ c ∈ h, c.1.Clear c.2) (hframes : t.Enough A increment) :
    (t.Clear increment → CallOk t₀ h t increment (t.sbrk A increment)) ∧
      (t₀.heap.heapEnd.toNat ≤ t.target increment →
        CallOk t₀ h t increment (t.sbrk A increment) → t.Clear increment) :=
  ⟨fun hc => ((hrun.inv h₀ hclear).sbrk hframes hc).2, fun habove => (hrun.inv h₀ hclear).clear habove⟩

end Whole

/-! ## One page -/

theorem bumpAllocator_supplies (hpos : 0 < a.next) (hle : a.next + n ≤ 1024) :
    bumpAllocator.Supplies n a := by
  induction n generalizing a with
  | zero => exact trivial
  | succ n ih =>
    have hlt : a.next < 1024 := by omega
    refine ⟨.ofPfn a.next, _, dif_pos hlt, fun hzero => ?_, ih ?_ ?_⟩
    · have hnat := PhysAddr.toNat_ofPfn hlt
      rw [hzero, UInt64.toNat_zero] at hnat
      omega
    · exact Nat.succ_pos _
    · change a.next + 1 + n ≤ 1024
      omega

/-- A task with nothing mapped and an empty heap. -/
def emptyTask : HeapTask BumpState where
  heap := ⟨0x400000, 0x400000, 0x7ffffffdf000⟩
  space := ⟨.ofPfn 3, .new, none, none, none, VmaTree.Good.new⟩
  mem := forkStart

def HeapTask.afterBump (t : HeapTask BumpState) (increment : Int64) : HeapTask BumpState :=
  (t.sbrk bumpAllocator increment).2

theorem emptyTask_ready : emptyTask.Ready bumpAllocator {.ofPfn 2} {.ofPfn 3} := by
  have hr := forkStart_ready ⟨0⟩ ⟨0⟩
  have hspace : SpaceOk bumpAllocator {.ofPfn 2} {.ofPfn 3} (lazySet ⟨0⟩ ⟨0⟩) forkStart :=
    ⟨hr.spaces, hr.space, rfl, hr.frames⟩
  refine ⟨hspace.congr rfl, fun q t ht i => ?_, by decide, by decide⟩
  obtain ⟨rfl, rfl⟩ := tableOf_priv_of_clear forkStart_clear ht
  change TidyEntry _ ((forkStart.priv userHalf (.ofPfn 3)).tables (.ofPfn 3) i)
  rw [priv_eq_zero forkStart_clear]
  exact tidyEntry_new _

theorem emptyTask_enough {t : HeapTask BumpState} (h : 0 < t.mem.alloc.next ∧ t.mem.alloc.next +
      4 * (pagesBetween t.top (t.newTop increment)).length ≤ 1024) :
    t.Enough bumpAllocator increment := fun _ => bumpAllocator_supplies h.1 h.2

theorem emptyTask_clear : emptyTask.Clear 4096 := by
  refine ⟨fun _ => by decide +kernel, fun _ => by decide +kernel, fun _ v hv => ?_⟩
  obtain ⟨a, ha, -⟩ := hv
  rw [show emptyTask.space.vma.areasInOrder = [] by decide +kernel] at ha
  cases ha

theorem emptyTask_run :
    HeapRun bumpAllocator emptyTask [(emptyTask, 4096)] (emptyTask.afterBump 4096) :=
  .sbrk .nil (emptyTask_enough (by decide +kernel))

/-- The heap grows twice by a page. -/
theorem callOk_secondPage :
    let t := emptyTask.afterBump 4096
    t.Clear 4096 ∧ CallOk emptyTask [(emptyTask, 4096)] t 4096 (t.sbrk bumpAllocator 4096) := by
  intro t
  have hclear : t.Clear 4096 := by
    refine ⟨fun _ => by decide +kernel, fun _ => by decide +kernel, fun _ v hv hrange => ?_⟩
    obtain ⟨a, ha, hin⟩ := hv
    rw [show t.space.vma.areasInOrder = [.new ⟨0x400000⟩ ⟨0x401000⟩ heapFlags] by decide +kernel] at ha
    rw [mem_singleton.mp ha, MemoryArea.contains_iff] at hin
    have htop : t.top.asU64 = 0x401000 := by decide +kernel
    rw [htop] at hrange
    exact absurd hin.2 (not_lt.mpr hrange.1)
  refine ⟨hclear, (HeapRun.callOk_iff emptyTask_ready emptyTask_run (fun c hc => ?_)
    (emptyTask_enough (by decide +kernel))).1 hclear⟩
  rw [mem_singleton.mp hc]
  exact emptyTask_clear

/-- The heap grows by a page and shrinks by a page.  The area of the page stays, and the
heap does not grow again. -/
theorem sbrk_lower_leaves_area :
    let t₁ := emptyTask.afterBump 4096
    let t₂ := t₁.afterBump (-4096)
    emptyTask.Ready bumpAllocator {.ofPfn 2} {.ofPfn 3} ∧
      HeapRun bumpAllocator emptyTask [(emptyTask, 4096)] t₁ ∧ t₁.Enough bumpAllocator (-4096) ∧
      ¬ CallOk emptyTask [(emptyTask, 4096)] t₁ (-4096) (t₁.sbrk bumpAllocator (-4096)) ∧
      t₂.Enough bumpAllocator 4096 ∧ (t₂.sbrk bumpAllocator 4096).1 = .ok (-1) := by
  refine ⟨emptyTask_ready, emptyTask_run, emptyTask_enough (by decide +kernel), fun hcall => ?_,
    emptyTask_enough (by decide +kernel), by decide +kernel⟩
  refine (hcall.above ⟨0x400000⟩ (by decide +kernel) (by decide +kernel)).2 ?_
  exact ⟨.new ⟨0x400000⟩ ⟨0x401000⟩ heapFlags, by decide +kernel, by decide⟩

end BoruixKernel
